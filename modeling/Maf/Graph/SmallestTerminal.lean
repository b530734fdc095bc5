/-
# Where the comparison of nodes is defined

`Node::hasSmallestTerminal` compares two words with `__builtin_ctzll`, whose result
for the word `0` is undefined.  `evalSmallest` is the comparison as it is evaluated,
`none` when it asks for that result.  Where it is defined it agrees with
`Bitset.hasSmallest`, which reads the result as `64` (`hasSmallest_of_eval`).

Two nodes with disjoint labels are compared by their smallest labels exactly when
these lie in the same word (`evalSmallestTerminal_iff`), and the roots of a forest
are ordered as `std::sort` and `std::lower_bound` require exactly when all of their
smallest labels do.
-/

import Maf.Graph.Stored
import Mathlib.Order.Defs.Unbundled

namespace Bitset

/-- `__builtin_ctzll`; nothing is promised for the word `0`. -/
def ctzll (x : Word) : Option ℕ := if x = 0 then none else some (ctz x)

/-- **The loop of `hasSmallestTerminal`**; `none` is an undefined result. -/
def evalSmallest : List Word → List Word → Option Bool
  | x :: xs, y :: ys =>
      if x = y then evalSmallest xs ys
      else do
        let i ← ctzll x
        let j ← ctzll y
        some (decide (i < j))
  | _, _ => some false

/-- A defined comparison does not depend on the reading of `__builtin_ctzll(0)`. -/
theorem hasSmallest_of_eval {ws vs : List Word} {b : Bool} (h : evalSmallest ws vs = some b) :
    hasSmallest ws vs = b := by
  induction ws generalizing vs with
  | nil => exact Option.some.inj h
  | cons x ws ih =>
      cases vs with
      | nil => exact Option.some.inj h
      | cons y vs =>
          rw [evalSmallest] at h
          rw [hasSmallest]
          split_ifs at h ⊢ with he
          · exact ih h
          · obtain ⟨i, hi, h⟩ := Option.bind_eq_some_iff.1 h
            obtain ⟨j, hj, h⟩ := Option.bind_eq_some_iff.1 h
            unfold ctzll at hi hj
            split_ifs at hi hj
            cases hi
            cases hj
            exact Option.some.inj h

/-- A node compared with itself. -/
theorem evalSmallest_self (ws : List Word) : evalSmallest ws ws = some false := by
  induction ws with
  | nil => rfl
  | cons w ws ih => rw [evalSmallest, if_pos rfl, ih]

/-- The word that has the bit of a label. -/
def wordOf (x : ℕ) : ℕ := (x - 1) / 64

variable {S T : Finset ℕ} {a b : ℕ}

/-- The words before that of the least number are empty. -/
theorem word_eq_zero_of_lt (ha : IsLeast (S : Set ℕ) a) {i : ℕ} (hi : i < wordOf a) : word S i = 0 := by
  refine word_eq_zero fun j hj hmem => ?_
  have hle : a ≤ 64 * i + j + 1 := ha.2 hmem
  unfold wordOf at hi
  omega

/-- The lowest bit of the first word that is not empty. -/
theorem ctzll_word (ha : IsLeast (S : Set ℕ) a) (hpos : 0 < a) : ctzll (word S (wordOf a)) = some ((a - 1) % 64) := by
  have hj : (a - 1) % 64 < 64 := Nat.mod_lt _ (by omega)
  have hmem : 64 * wordOf a + (a - 1) % 64 + 1 ∈ S := by
    rw [show 64 * wordOf a + (a - 1) % 64 + 1 = a by unfold wordOf; omega]
    exact ha.1
  have hle := ctz_le hj hmem
  have hne : word S (wordOf a) ≠ 0 := by
    intro h0
    rw [h0, ctz_zero] at hle
    omega
  have hlow : a ≤ 64 * wordOf a + ctz (word S (wordOf a)) + 1 := ha.2 (ctz_mem (by omega))
  rw [ctzll, if_neg hne, Option.some.injEq]
  unfold wordOf at hle hlow ⊢
  omega

/-- The words of disjoint sets differ where one of them has its smallest element. -/
theorem word_ne (hd : Disjoint S T) (ha : IsLeast (S : Set ℕ) a) (hpos : 0 < a) :
    word S (wordOf a) ≠ word T (wordOf a) := by
  intro he
  have hj : (a - 1) % 64 < 64 := Nat.mod_lt _ (by omega)
  have hS := getLsbD_word S (wordOf a) hj
  have hT := getLsbD_word T (wordOf a) hj
  have hx : 64 * wordOf a + (a - 1) % 64 + 1 = a := by unfold wordOf; omega
  rw [hx] at hS hT
  rw [he, hT] at hS
  exact Finset.disjoint_left.1 hd ha.1 (by simpa [show a ∈ S from ha.1] using hS)

/-- The comparison from the word `i` on, before the smaller of the two elements. -/
theorem evalSmallest_words (hd : Disjoint S T) (ha : IsLeast (S : Set ℕ) a) (hb : IsLeast (T : Set ℕ) b) (hapos : 0 < a)
    (hbpos : 0 < b) (n i : ℕ) (hi : i ≤ min (wordOf a) (wordOf b)) (hn : min (wordOf a) (wordOf b) < i + n) :
    evalSmallest ((List.range' i n).map (word S)) ((List.range' i n).map (word T)) =
      if wordOf a = wordOf b then some (decide (a < b)) else none := by
  induction n generalizing i with
  | zero => omega
  | succ n ih =>
      rw [List.range'_succ, List.map_cons, List.map_cons, evalSmallest]
      by_cases hlt : i < min (wordOf a) (wordOf b)
      · -- both words are empty
        rw [word_eq_zero_of_lt ha (hlt.trans_le (min_le_left _ _)),
          word_eq_zero_of_lt hb (hlt.trans_le (min_le_right _ _)), if_pos rfl]
        exact ih (i + 1) hlt (by omega)
      · rcases lt_trichotomy (wordOf a) (wordOf b) with hab | hab | hab
        · obtain rfl : i = wordOf a := by omega
          rw [if_neg (word_ne hd ha hapos), if_neg hab.ne, ctzll_word ha hapos, word_eq_zero_of_lt hb hab]
          rfl
        · obtain rfl : i = wordOf a := by omega
          rw [if_neg (word_ne hd ha hapos), if_pos hab, ctzll_word ha hapos, hab, ctzll_word hb hbpos]
          refine congrArg some (decide_eq_decide.2 ?_)
          unfold wordOf at hab
          omega
        · obtain rfl : i = wordOf b := by omega
          have hne : word S (wordOf b) ≠ word T (wordOf b) := (word_ne hd.symm hb hbpos).symm
          rw [if_neg hne, if_neg hab.ne', word_eq_zero_of_lt ha hab]
          rfl

/-- **The comparison is defined when both smallest elements lie in one word**, and
then it compares them. -/
theorem evalSmallest_encode {width : ℕ} (hd : Disjoint S T) (ha : IsLeast (S : Set ℕ) a) (hb : IsLeast (T : Set ℕ) b)
    (hS : Within width S) (hT : Within width T) : evalSmallest (encode width S) (encode width T) =
      if wordOf a = wordOf b then some (decide (a < b)) else none := by
  have ha' := hS a ha.1
  have hb' := hT b hb.1
  rw [encode, encode, List.range_eq_range']
  refine evalSmallest_words hd ha hb ha'.1 hb'.1 width 0 (Nat.zero_le _) ?_
  unfold wordOf
  omega

end Bitset

namespace Maf

open Bitset (encode Within wordOf)

namespace Graph

/-- `Node::hasSmallestTerminal` as it is evaluated. -/
def Nodes.evalSmallestTerminal (h : Nodes) (a b : Ptr) : Option Bool :=
  Bitset.evalSmallest (h a).subtreeTerminals (h b).subtreeTerminals

/-- What `std::sort` and `std::lower_bound` require of the comparison of some nodes:
all results are defined, and they are a strict weak order. -/
structure Nodes.Orders (h : Nodes) (roots : List Ptr) : Prop where
  isSome : ∀ a ∈ roots, ∀ b ∈ roots, (h.evalSmallestTerminal a b).isSome = true
  order : IsStrictWeakOrder {p // p ∈ roots} fun a b => h.evalSmallestTerminal a b = some true

end Graph

open Graph

/-- The least label of a valid tree is its least terminal. -/
theorem Tree.Valid.isLeast {t : Tree} (ht : t.Valid) : IsLeast (t.subtreeTerminals : Set Label) t.least :=
  ⟨Tree.labels_subset_subtreeTerminals t t.least_mem_labels, fun _ hx => ht.least_le hx⟩

namespace Forest

variable {width : ℕ} {s : Store} {F : Forest}

/-- The comparison of two roots. -/
theorem WellFormed.evalSmallestTerminal (hF : F.WellFormed width s) {t u : Tree} (ht : t ∈ F) (hu : u ∈ F) :
    s.nodes.evalSmallestTerminal t.ptr u.ptr =
      if t.least = u.least ∨ wordOf t.least = wordOf u.least then some (decide (t.least < u.least)) else none := by
  rw [Nodes.evalSmallestTerminal]
  by_cases htu : t = u
  · subst htu
    rw [Bitset.evalSmallest_self, if_pos (Or.inl rfl), decide_eq_false (lt_irrefl _)]
  · have hd : Disjoint t.subtreeTerminals u.subtreeTerminals :=
      Finset.disjoint_left.2 fun x hx hx' => htu (hF.valid.eq_of_mem ht hu hx hx')
    have hne : t.least ≠ u.least := fun he => Finset.disjoint_left.1 hd (hF.valid.tree t ht).isLeast.1
      (he ▸ (hF.valid.tree u hu).isLeast.1)
    rw [(hF.stored.trees t ht).words, (hF.stored.trees u hu).words,
      Bitset.evalSmallest_encode hd (hF.valid.tree t ht).isLeast (hF.valid.tree u hu).isLeast (hF.within t ht)
        (hF.within u hu)]
    simp only [hne, false_or]

/-- **The roots are ordered** exactly when their smallest labels lie in one word. -/
theorem WellFormed.orders_iff (hF : F.WellFormed width s) :
    s.nodes.Orders s.roots ↔ ∀ t ∈ F, ∀ u ∈ F, wordOf t.least = wordOf u.least := by
  rw [hF.stored.roots]
  constructor
  · intro h t ht u hu
    have hsome := h.isSome t.ptr (List.mem_map_of_mem ht) u.ptr (List.mem_map_of_mem hu)
    rw [hF.evalSmallestTerminal ht hu] at hsome
    split_ifs at hsome with hor
    · exact hor.elim (congrArg wordOf) id
    · cases hsome
  · intro hsame
    have heval : ∀ t ∈ F, ∀ u ∈ F, s.nodes.evalSmallestTerminal t.ptr u.ptr = some (decide (t.least < u.least)) :=
      fun t ht u hu => by rw [hF.evalSmallestTerminal ht hu, if_pos (Or.inr (hsame t ht u hu))]
    refine ⟨fun a ha b hb => ?_, ?_⟩
    · obtain ⟨t, ht, rfl⟩ := List.mem_map.1 ha
      obtain ⟨u, hu, rfl⟩ := List.mem_map.1 hb
      rw [heval t ht u hu]
      rfl
    · have root : ∀ a : {p // p ∈ F.map Tree.ptr}, ∃ t ∈ F, t.ptr = a := fun a => List.mem_map.1 a.2
      refine { irrefl := fun a h => ?_, trans := fun a b c hab hbc => ?_, incomp_trans := fun a b c hab hbc => ?_ }
      · obtain ⟨t, ht, hta⟩ := root a
        rw [← hta, heval t ht t ht, decide_eq_false (lt_irrefl _)] at h
        cases h
      · obtain ⟨t, ht, hta⟩ := root a
        obtain ⟨u, hu, hub⟩ := root b
        obtain ⟨v, hv, hvc⟩ := root c
        simp only [← hta, ← hub, ← hvc, heval t ht u hu, heval u hu v hv, heval t ht v hv, Option.some.injEq,
          decide_eq_true_eq] at hab hbc ⊢
        exact hab.trans hbc
      · obtain ⟨t, ht, hta⟩ := root a
        obtain ⟨u, hu, hub⟩ := root b
        obtain ⟨v, hv, hvc⟩ := root c
        simp only [← hta, ← hub, ← hvc, heval t ht u hu, heval u hu t ht, heval u hu v hv, heval v hv u hu,
          heval t ht v hv, heval v hv t ht, Option.some.injEq, decide_eq_true_eq, not_lt] at hab hbc ⊢
        exact ⟨hbc.1.trans hab.1, hab.2.trans hbc.2⟩

end Forest

namespace Graph

/-- **Where `hasSmallestTerminal` does what it should.**  Two nodes with disjoint
labels are compared by their smallest labels, with every result defined, exactly
when these lie in one word of 64 labels; and the comparison orders the roots of a
well-formed forest exactly when the smallest labels of all trees do. -/
theorem evalSmallestTerminal_iff (width : ℕ) :
    (∀ (h : Nodes) (p q : Ptr) (A B : Finset Label) (hA : A.Nonempty) (hB : B.Nonempty),
      (h p).subtreeTerminals = encode width A → (h q).subtreeTerminals = encode width B → Within width A →
      Within width B → Disjoint A B →
      (h.evalSmallestTerminal p q = some (decide (A.min' hA < B.min' hB)) ↔
        wordOf (A.min' hA) = wordOf (B.min' hB))) ∧
    ∀ (s : Store) (F : Forest), F.WellFormed width s →
      (s.nodes.Orders s.roots ↔ ∀ t ∈ F, ∀ u ∈ F, wordOf t.least = wordOf u.least) := by
  refine ⟨fun h p q A B hA hB hp hq hwA hwB hd => ?_, fun s F hF => hF.orders_iff⟩
  rw [Nodes.evalSmallestTerminal, hp, hq,
    Bitset.evalSmallest_encode hd (A.isLeast_min' hA) (B.isLeast_min' hB) hwA hwB]
  split_ifs with hsame <;> simp [hsame]

/-- Two trees that are single terminals, with the labels `x` and `y`. -/
def twoTerminals (x y : Label) : Forest := [.leaf 0 x ∅, .leaf 1 y ∅]

/-- Two single vertices are a well-formed forest. -/
theorem wellFormed_twoTerminals {width : ℕ} {x y : Label} (hx : 0 < x) (hxy : x < y) (hy : y ≤ 64 * width) :
    (twoTerminals x y).WellFormed width ((twoTerminals x y).toStore width) := by
  refine Forest.toStore_wellFormed ⟨?_, ?_, ?_, by simp [twoTerminals, Forest.ptrs]⟩ ?_
  · simp [twoTerminals, Tree.Valid, hx, hx.trans hxy]
  · simp [twoTerminals, hxy.ne]
  · simp [twoTerminals, hxy]
  · simp only [twoTerminals, List.forall_mem_cons]
    refine ⟨fun z hz => ?_, fun z hz => ?_, fun _ h => (List.not_mem_nil h).elim⟩
    · obtain rfl : z = x := by simpa using hz
      exact ⟨hx, hxy.le.trans hy⟩
    · obtain rfl : z = y := by simpa using hz
      exact ⟨hx.trans hxy, hy⟩

/-- The comparison of the labels `2` and `3`. -/
theorem evalSmallestTerminal_iff_twoTerminals :
    (((twoTerminals 2 3).toStore 1).nodes.evalSmallestTerminal 0 1 = some true ↔ wordOf 2 = wordOf 3) ∧
      (((twoTerminals 2 3).toStore 1).nodes.Orders ((twoTerminals 2 3).toStore 1).roots ↔
        ∀ t ∈ twoTerminals 2 3, ∀ u ∈ twoTerminals 2 3, wordOf t.least = wordOf u.least) :=
  ⟨(evalSmallestTerminal_iff 1).1 ((twoTerminals 2 3).toStore 1).nodes 0 1 {2} {3} (Finset.singleton_nonempty 2)
      (Finset.singleton_nonempty 3) rfl rfl (by decide) (by decide) (by decide),
    (evalSmallestTerminal_iff 1).2 _ _ (wellFormed_twoTerminals (by decide) (by decide) (by decide))⟩

/-- **The labels `1` and `65` are not compared**: their first words are `1` and `0`,
and the trailing zeros of `0` are undefined. -/
theorem evalSmallestTerminal_undefined :
    (twoTerminals 1 65).WellFormed 2 ((twoTerminals 1 65).toStore 2) ∧
      ((twoTerminals 1 65).toStore 2).nodes.evalSmallestTerminal 0 1 = none ∧
      ¬((twoTerminals 1 65).toStore 2).nodes.Orders ((twoTerminals 1 65).toStore 2).roots := by
  have hF : (twoTerminals 1 65).WellFormed 2 ((twoTerminals 1 65).toStore 2) :=
    wellFormed_twoTerminals (by decide) (by decide) (by decide)
  refine ⟨hF, ?_, fun h => ?_⟩
  · have h := hF.evalSmallestTerminal (t := .leaf 0 1 ∅) (u := .leaf 1 65 ∅) (by simp [twoTerminals])
      (by simp [twoTerminals])
    exact h.trans (if_neg (by decide))
  · exact absurd (hF.orders_iff.1 h (.leaf 0 1 ∅) (by simp [twoTerminals]) (.leaf 1 65 ∅) (by simp [twoTerminals]))
      (by decide)

end Graph
end Maf
