/-
# The maximum common subforest

`Forest::maximumCommonSubforestRoots` and `Forest::hasIdenticalSubtree` in
`src/Graph/Forest.cpp`.  From every terminal that is not marked yet it climbs both
forests as long as the siblings are identical, marks the labels below the node it
reaches, and returns that node.

The climb always ends at a maximal common subtree (`climb_spec`).  The labels to be
marked are decoded from the words by counting the bits; when the highest bit of a word
is one of its last two, the count skips a word, and every later label comes out
`64` too large (`Bitset.decode_encode`).  `maximumCommonSubforestRoots_correct_iff` says
exactly when that does harm.
-/

import Maf.Bitset
import Maf.CommonSubtree
import Mathlib.Data.Nat.Size

namespace Bitset

/-- The loop over the bits of a word: the numbers that are marked, and the number
after the highest bit. -/
def decodeWord : ℕ → ℕ → ℕ → List ℕ × ℕ
  | 0, _, label => ([], label)
  | fuel + 1, temp, label =>
      if temp = 0 then ([], label)
      else
        let r := decodeWord fuel (temp / 2) (label + 1)
        (if temp % 2 = 1 then label :: r.1 else r.1, r.2)

/-- The loop over the words. -/
def decode : List Word → ℕ → List ℕ
  | [], _ => []
  | w :: ws, label =>
      let r := decodeWord 64 w.toNat label
      r.1 ++ decode ws (r.2 + (65 - r.2 % 64))

/-- How many words before that of `x` have one of their last two bits set. -/
def skips (S : Finset ℕ) (x : ℕ) : ℕ :=
  ((Finset.range ((x - 1) / 64)).filter fun i => 64 * i + 63 ∈ S ∨ 64 * i + 64 ∈ S).card

/-- What the loop makes of the words of a set. -/
def decoded (S : Finset ℕ) : Finset ℕ := S.image fun x => x + 64 * skips S x

/-- Halving a number takes off one bit. -/
theorem size_div_two {temp : ℕ} (h : temp ≠ 0) : temp.size = (temp / 2).size + 1 := by
  have hpos := Nat.size_pos.2 (Nat.pos_of_ne_zero h)
  refine le_antisymm (Nat.size_le.2 ?_) ?_
  · have := Nat.lt_size_self (temp / 2)
    rw [pow_succ]
    omega
  · have : (temp / 2).size ≤ temp.size - 1 := by
      refine Nat.size_le.2 ?_
      have hlt := Nat.lt_size_self temp
      rw [show temp.size = temp.size - 1 + 1 by omega, pow_succ] at hlt
      omega
    omega

/-- The numbers of the bits, and the end of the count. -/
theorem decodeWord_spec {fuel temp : ℕ} (h : temp < 2 ^ fuel) (label : ℕ) :
    (∀ y, y ∈ (decodeWord fuel temp label).1 ↔ ∃ j, temp.testBit j ∧ y = label + j) ∧
      (decodeWord fuel temp label).2 = label + temp.size := by
  induction fuel generalizing temp label with
  | zero =>
      obtain rfl : temp = 0 := by simpa using h
      simp [decodeWord, Nat.size_zero]
  | succ fuel ih =>
      by_cases h₀ : temp = 0
      · simp [decodeWord, h₀, Nat.size_zero]
      · obtain ⟨hmem, hend⟩ := ih (show temp / 2 < 2 ^ fuel by rw [pow_succ] at h; omega) (label + 1)
        rw [decodeWord, if_neg h₀]
        dsimp only
        refine ⟨fun y => ?_, by rw [hend, size_div_two h₀]; omega⟩
        have hsplit : (∃ j, temp.testBit j ∧ y = label + j) ↔
            temp.testBit 0 ∧ y = label ∨ ∃ j, (temp / 2).testBit j ∧ y = label + 1 + j := by
          constructor
          · rintro ⟨_ | j, hj, rfl⟩
            · exact Or.inl ⟨hj, rfl⟩
            · exact Or.inr ⟨j, by rwa [← Nat.testBit_succ], by omega⟩
          · rintro (⟨hj, rfl⟩ | ⟨j, hj, rfl⟩)
            · exact ⟨0, hj, rfl⟩
            · exact ⟨j + 1, by rwa [Nat.testBit_succ], by omega⟩
        rw [hsplit, ← hmem]
        by_cases h₁ : temp % 2 = 1
        · simp [h₁, Nat.testBit_zero]
        · simp [h₁, Nat.testBit_zero]

/-- The words whose last two bits are not both empty. -/
def full (w : Word) : Bool := decide (2 ^ 62 ≤ w.toNat)

/-- **Where the count goes on**: at the next word, or at the one after it. -/
theorem next_label {w : Word} {k : ℕ} :
    (64 * k + 1 + w.toNat.size) + (65 - (64 * k + 1 + w.toNat.size) % 64) =
      64 * (k + 1 + if full w then 1 else 0) + 1 := by
  have h₆₄ : w.toNat.size ≤ 64 := Nat.size_le.2 w.isLt
  cases h : full w with
  | true =>
      have : 62 < w.toNat.size := Nat.lt_size.2 (of_decide_eq_true h)
      rw [if_pos rfl]
      omega
  | false =>
      have : w.toNat.size ≤ 62 := Nat.size_le.2 (not_le.1 (of_decide_eq_false h))
      rw [if_neg Bool.false_ne_true]
      omega

/-- **The loop over the words** marks the bits of a word at the number of the word,
plus that of the words skipped before it. -/
theorem mem_decode (ws : List Word) (k : ℕ) (y : ℕ) : y ∈ decode ws (64 * k + 1) ↔
    ∃ i, ∃ w, ws[i]? = some w ∧ ∃ j, w.toNat.testBit j ∧ y = 64 * (k + i + (ws.take i).countP full) + j + 1 := by
  induction ws generalizing k with
  | nil => simp [decode]
  | cons w ws ih =>
      obtain ⟨hmem, hend⟩ := decodeWord_spec w.isLt (64 * k + 1)
      rw [decode, hend, next_label, List.mem_append, hmem, ih]
      constructor
      · rintro (⟨j, hj, rfl⟩ | ⟨i, v, hv, j, hj, rfl⟩)
        · exact ⟨0, w, rfl, j, hj, by simp; omega⟩
        · refine ⟨i + 1, v, hv, j, hj, ?_⟩
          rw [List.take_succ_cons, List.countP_cons]
          ring
      · rintro ⟨_ | i, v, hv, j, hj, rfl⟩
        · obtain rfl : w = v := Option.some.inj hv
          exact Or.inl ⟨j, hj, by simp; omega⟩
        · refine Or.inr ⟨i, v, hv, j, hj, ?_⟩
          rw [List.take_succ_cons, List.countP_cons]
          ring

/-- A word is full when one of its last two bits is set. -/
theorem full_word (S : Finset ℕ) (i : ℕ) : full (word S i) = decide (64 * i + 63 ∈ S ∨ 64 * i + 64 ∈ S) := by
  have hbit : ∀ j < 64, (word S i).toNat.testBit j = decide (64 * i + j + 1 ∈ S) := fun j hj => by
    rw [BitVec.testBit_toNat, getLsbD_word S i hj]
  refine decide_eq_decide.2 ?_
  constructor
  · intro h
    by_contra hno
    rw [not_or] at hno
    refine absurd h (not_le.2 (Nat.lt_pow_two_of_testBit _ fun j hj => ?_))
    rcases Nat.lt_or_ge j 64 with hlt | hge
    · rw [hbit j hlt]
      obtain rfl | rfl : j = 62 ∨ j = 63 := by omega
      · simpa using hno.1
      · simpa using hno.2
    · exact Nat.testBit_lt_two_pow ((word S i).isLt.trans_le (Nat.pow_le_pow_right (by norm_num) hge))
  · rintro (h | h)
    · exact Nat.ge_two_pow_of_testBit (by rw [hbit 62 (by norm_num)]; simpa using h)
    · refine le_trans (Nat.pow_le_pow_right (by norm_num) (by norm_num : 62 ≤ 63)) ?_
      exact Nat.ge_two_pow_of_testBit (by rw [hbit 63 (by norm_num)]; simpa using h)

/-- How many words before the `i`-th are full. -/
theorem countP_take_encode {width i : ℕ} (S : Finset ℕ) (hi : i ≤ width) : ((encode width S).take i).countP full =
    ((Finset.range i).filter fun i => 64 * i + 63 ∈ S ∨ 64 * i + 64 ∈ S).card := by
  rw [encode, ← List.map_take, List.take_range, min_eq_left hi, List.countP_map, List.countP_eq_length_filter,
    Finset.card_def, Finset.filter_val, Finset.range_val, Multiset.range, Multiset.filter_coe, Multiset.coe_card]
  congr 2
  funext i
  exact full_word S i

/-- **What is marked.** -/
theorem decode_encode {width : ℕ} {S : Finset ℕ} (hS : Within width S) :
    (decode (encode width S) 1).toFinset = decoded S := by
  ext y
  rw [List.mem_toFinset, show (1 : ℕ) = 64 * 0 + 1 from rfl, mem_decode, decoded, Finset.mem_image]
  constructor
  · rintro ⟨i, w, hw, j, hj, rfl⟩
    have hi : i < width := by
      have := (List.getElem?_eq_some_iff.1 hw).1
      rwa [length_encode] at this
    have hwi : w = word S i := by
      rw [encode, List.getElem?_map, List.getElem?_range hi] at hw
      exact (Option.some.inj hw).symm
    have hj64 : j < 64 := by
      by_contra hge
      rw [Nat.testBit_lt_two_pow (w.isLt.trans_le (Nat.pow_le_pow_right (by norm_num) (not_lt.1 hge)))] at hj
      exact Bool.false_ne_true hj
    rw [BitVec.testBit_toNat, hwi, getLsbD_word S i hj64] at hj
    refine ⟨64 * i + j + 1, of_decide_eq_true hj, ?_⟩
    rw [skips, countP_take_encode S hi.le, show (64 * i + j + 1 - 1) / 64 = i by omega]
    ring
  · rintro ⟨x, hx, rfl⟩
    obtain ⟨hpos, hle⟩ := hS x hx
    have hi : (x - 1) / 64 < width := by omega
    have hj : (x - 1) % 64 < 64 := Nat.mod_lt _ (by norm_num)
    refine ⟨(x - 1) / 64, word S ((x - 1) / 64), ?_, (x - 1) % 64, ?_, ?_⟩
    · rw [encode, List.getElem?_map, List.getElem?_range hi]
      rfl
    · rw [BitVec.testBit_toNat, getLsbD_word S _ hj, show 64 * ((x - 1) / 64) + (x - 1) % 64 + 1 = x by omega]
      exact decide_eq_true hx
    · rw [countP_take_encode S hi.le, skips]
      omega

/-- Nothing is skipped before a label when no earlier word is full. -/
theorem skips_eq_zero_iff {S : Finset ℕ} {x : ℕ} : skips S x = 0 ↔
    ∀ i < (x - 1) / 64, 64 * i + 63 ∉ S ∧ 64 * i + 64 ∉ S := by
  rw [skips, Finset.card_eq_zero, Finset.filter_eq_empty_iff]
  simp only [Finset.mem_range, not_or]

/-- A number on one of the last two bits of its word stands in the last word of the set. -/
def EndsEarly (S : Finset ℕ) : Prop :=
  ∀ x ∈ S, x % 64 = 63 ∨ x % 64 = 0 → ∀ y ∈ S, (y - 1) / 64 ≤ (x - 1) / 64

/-- A set that ends early is decoded right. -/
theorem EndsEarly.decoded_eq {S : Finset ℕ} (h : EndsEarly S) : decoded S = S := by
  refine (Finset.image_congr fun y hy => ?_).trans Finset.image_id
  have hzero : skips S y = 0 := skips_eq_zero_iff.2 fun i hi => by
    constructor
    · intro hx
      have := h _ hx (Or.inl (by omega)) y hy
      omega
    · intro hx
      have := h _ hx (Or.inr (by omega)) y hy
      omega
  simp [hzero]

/-- The first number that is moved is not marked at all. -/
theorem endsEarly_of_subset {S : Finset ℕ} (hpos : ∀ x ∈ S, 0 < x)
    (h : ∀ x ∈ S, ∀ y ∈ S, x ≠ y → y ∈ decoded S) : EndsEarly S := by
  intro x hx hlate y hy
  by_contra hlt
  have hx₀ := hpos x hx
  have hskip : ∃ z, z ∈ S ∧ skips S z ≠ 0 := by
    refine ⟨y, hy, fun h₀ => ?_⟩
    obtain ⟨h₆₃, h₆₄⟩ := skips_eq_zero_iff.1 h₀ _ (not_le.1 hlt)
    rcases hlate with hm | hm
    · exact h₆₃ (by rwa [show 64 * ((x - 1) / 64) + 63 = x by omega])
    · exact h₆₄ (by rwa [show 64 * ((x - 1) / 64) + 64 = x by omega])
  obtain ⟨z, ⟨hz, hmoved⟩, hfirst⟩ : ∃ z, (z ∈ S ∧ skips S z ≠ 0) ∧ ∀ w < z, w ∈ S → skips S w = 0 := by
    classical
    refine ⟨Nat.find hskip, Nat.find_spec hskip, fun w hw hwS => ?_⟩
    by_contra hne
    exact Nat.find_min hskip hw ⟨hwS, hne⟩
  obtain ⟨w, hw, hne⟩ : ∃ w ∈ S, w ≠ z := by
    by_contra hall
    push Not at hall
    rw [hall x hx, hall y hy] at hlt
    exact hlt le_rfl
  obtain ⟨u, hu, hue⟩ := Finset.mem_image.1 (h w hw z hz hne)
  rcases Nat.lt_trichotomy u z with hlt | rfl | hlt
  · rw [hfirst u hlt hu] at hue
    omega
  · omega
  · omega

end Bitset

namespace Maf

open Bitset (encode decode decoded Within)

namespace Forest

/-- What is pushed for two nodes with the same terminals; `none` when just one of them
is a leaf. -/
def pushed : Tree → Tree → Option (List Tree × List Tree)
  | .node _ l1 r1, .node _ l2 r2 => some ([l1, r1], [l2, r2])
  | .leaf .., .leaf .. => some ([], [])
  | _, _ => none

/-- The loop of `hasIdenticalSubtree` over its two stacks. -/
def identicalStacks (width : ℕ) : ℕ → List Tree → List Tree → Bool
  | 0, stack1, stack2 => stack1.isEmpty && stack2.isEmpty
  | fuel + 1, stack1, stack2 =>
      match stack1, stack2 with
      | current1 :: rest1, current2 :: rest2 =>
          if current1.hasSameTerminals width current2 then
            match pushed current1 current2 with
            | some (children1, children2) => identicalStacks width fuel (children1 ++ rest1) (children2 ++ rest2)
            | none => false
          else false
      | _, _ => stack1.isEmpty && stack2.isEmpty

/-- `hasIdenticalSubtree`; every node is visited at most once. -/
def hasIdenticalSubtree (width : ℕ) (subtree1 subtree2 : Tree) : Bool :=
  identicalStacks width subtree1.ptrs.length [subtree1] [subtree2]

/-- The inner loop: climbs both forests as long as the siblings are identical. -/
def climb (width : ℕ) (f other : Forest) : ℕ → Tree → Tree → Tree
  | 0, t1CurrentNode, _ => t1CurrentNode
  | fuel + 1, t1CurrentNode, t2CurrentNode =>
      match f.parent t1CurrentNode, other.parent t2CurrentNode, f.sibling t1CurrentNode,
        other.sibling t2CurrentNode with
      | some p1, some p2, some s1, some s2 =>
          if hasIdenticalSubtree width s1 s2 then climb width f other fuel p1 p2 else t1CurrentNode
      | _, _, _, _ => t1CurrentNode

/-- The outer loop over the terminals, with `visitedLeaves`; `none` is a label without
a terminal in the other forest. -/
def commonRoots (width : ℕ) (f other : Forest) : List Tree → Finset Label → Option (List Tree)
  | [], _ => some []
  | leaf :: leaves, visitedLeaves => do
      let leafLabel ← leaf.terminalToLabel
      if leafLabel ∈ visitedLeaves then commonRoots width f other leaves visitedLeaves
      else
        let t2CurrentNode ← other.labelToTerminal leafLabel
        let root := climb width f other f.subtrees.length leaf t2CurrentNode
        let visitedLeaves := visitedLeaves ∪ (decode (encode width root.subtreeTerminals) 1).toFinset
        let newRoots ← commonRoots width f other leaves visitedLeaves
        some (root :: newRoots)

/-- **`maximumCommonSubforestRoots`**, with the order in which `TerminalToLabel` is
iterated. -/
def maximumCommonSubforestRoots (width : ℕ) (f other : Forest) (terminals : List Tree) : Option (List Tree) :=
  commonRoots width f other terminals ∅

section Identical

variable {width : ℕ}

/-- Valid terminals with the same labels are identical. -/
theorem identical_leaf {p q : Ptr} {x y : Label} {m m' : Finset Label} (hs : (Tree.leaf p x m).Valid)
    (ht : (Tree.leaf q y m').Valid) (h : (Tree.leaf p x m).subtreeTerminals = (Tree.leaf q y m').subtreeTerminals) :
    (Tree.leaf p x m).Identical (.leaf q y m') := by
  have hle : ∀ {p q x y m m'}, (Tree.leaf p x m).Valid → (Tree.leaf q y m').subtreeTerminals =
      (Tree.leaf p x m).subtreeTerminals → x ≤ y := fun hv he =>
    hv.least_le (he ▸ Finset.mem_insert_self _ _)
  have hnot : ∀ {p x m}, (Tree.leaf p x m).Valid → x ∉ m := fun hv hx => lt_irrefl _ (hv.2 _ hx)
  obtain rfl : x = y := le_antisymm (hle hs h.symm) (hle ht h)
  have hm := congrArg (·.erase x) h
  simp only [Tree.subtreeTerminals, Finset.erase_insert (hnot hs), Finset.erase_insert (hnot ht)] at hm
  exact ⟨rfl, hm⟩

/-- **The stacks are compared tree by tree.** -/
theorem identicalStacks_iff {fuel : ℕ} {st1 st2 : List Tree} (h1 : ∀ t ∈ st1, t.Valid) (h2 : ∀ t ∈ st2, t.Valid)
    (w1 : ∀ t ∈ st1, Within width t.subtreeTerminals) (w2 : ∀ t ∈ st2, Within width t.subtreeTerminals)
    (hfuel : (st1.map fun t => t.ptrs.length).sum ≤ fuel) :
    identicalStacks width fuel st1 st2 = true ↔ List.Forall₂ Tree.Identical st1 st2 := by
  induction fuel generalizing st1 st2 with
  | zero =>
      cases st1 with
      | nil => cases st2 <;> simp [identicalStacks]
      | cons t1 st1 =>
          have : 0 < t1.ptrs.length := by cases t1 <;> simp [Tree.ptrs]
          simp only [List.map_cons, List.sum_cons] at hfuel
          omega
  | succ fuel ih =>
      cases st1 with
      | nil => cases st2 <;> simp [identicalStacks]
      | cons t1 st1 =>
          cases st2 with
          | nil => simp [identicalStacks]
          | cons t2 st2 =>
              rw [List.forall_mem_cons] at h1 h2 w1 w2
              rw [List.map_cons, List.sum_cons] at hfuel
              rw [List.forall₂_cons, identicalStacks]
              by_cases hset : t1.subtreeTerminals = t2.subtreeTerminals
              · rw [if_pos ((Tree.hasSameTerminals_iff w1.1 w2.1).2 hset)]
                cases t1 with
                | leaf p x m =>
                    cases t2 with
                    | leaf q y m' =>
                        rw [pushed]
                        dsimp only [List.nil_append]
                        rw [ih h1.2 h2.2 w1.2 w2.2 (by simp only [Tree.ptrs, List.length_singleton] at hfuel; omega)]
                        exact ⟨fun h => ⟨identical_leaf h1.1 h2.1 hset, h⟩, And.right⟩
                    | node => exact ⟨fun h => absurd h Bool.false_ne_true, fun h => h.1.elim⟩
                | node p l r =>
                    cases t2 with
                    | leaf => exact ⟨fun h => absurd h Bool.false_ne_true, fun h => h.1.elim⟩
                    | node q l' r' =>
                        simp only [Tree.ptrs, List.length_cons, List.length_append] at hfuel
                        rw [pushed, Tree.identical_node_iff h1.1 h2.1]
                        dsimp only [List.cons_append, List.nil_append]
                        rw [ih, List.forall₂_cons, List.forall₂_cons, and_assoc]
                        · exact List.forall_mem_cons.2 ⟨h1.1.1, List.forall_mem_cons.2 ⟨h1.1.2.1, h1.2⟩⟩
                        · exact List.forall_mem_cons.2 ⟨h2.1.1, List.forall_mem_cons.2 ⟨h2.1.2.1, h2.2⟩⟩
                        · exact List.forall_mem_cons.2 ⟨w1.1.mono Finset.subset_union_left,
                            List.forall_mem_cons.2 ⟨w1.1.mono Finset.subset_union_right, w1.2⟩⟩
                        · exact List.forall_mem_cons.2 ⟨w2.1.mono Finset.subset_union_left,
                            List.forall_mem_cons.2 ⟨w2.1.mono Finset.subset_union_right, w2.2⟩⟩
                        · simp only [List.map_cons, List.sum_cons]
                          omega
              · rw [if_neg fun h => hset ((Tree.hasSameTerminals_iff w1.1 w2.1).1 h)]
                exact ⟨fun h => absurd h Bool.false_ne_true, fun h => absurd h.1.subtreeTerminals_eq hset⟩

/-- **`hasIdenticalSubtree` decides whether two trees are identical.** -/
theorem hasIdenticalSubtree_iff {s t : Tree} (hs : s.Valid) (ht : t.Valid) (ws : Within width s.subtreeTerminals)
    (wt : Within width t.subtreeTerminals) : hasIdenticalSubtree width s t = true ↔ s.Identical t := by
  rw [hasIdenticalSubtree, identicalStacks_iff (by simpa using hs) (by simpa using ht) (by simpa using ws)
    (by simpa using wt) (by simp)]
  simp

end Identical

section Climb

variable {width : ℕ} {f other : Forest} {a b v : Tree}

/-- **The climb ends at a maximal common subtree.** -/
theorem climb_spec (hf : f.Fits width) (ho : other.Fits width) {fuel : ℕ} (ha : a ∈ f.subtrees)
    (hb : b ∈ other.subtrees) (hab : a.Identical b) (hfuel : f.subtrees.length ≤ fuel + a.subtrees.length) :
    IsMaximalCommon f [other] (climb width f other fuel a b) ∧ a ∈ (climb width f other fuel a b).subtrees := by
  have common : ∀ {a b : Tree}, a ∈ f.subtrees → b ∈ other.subtrees → a.Identical b → IsCommon f [other] a :=
    fun ha hb hab => ⟨ha, fun G hG => ⟨_, List.mem_singleton.1 hG ▸ hb, hab⟩⟩
  -- the climb stops where the parents are not identical
  have stop : ∀ {a b : Tree}, a ∈ f.subtrees → b ∈ other.subtrees → a.Identical b →
      (∀ pa pb sa sb, f.parent a = some pa → other.parent b = some pb → f.sibling a = some sa →
        other.sibling b = some sb → ¬sa.Identical sb) → IsMaximalCommon f [other] a := by
    intro a b ha hb hab h
    refine (isMaximalCommon_iff hf.valid.distinct (common ha hb hab)).2 fun pa hpa hcom => ?_
    obtain ⟨w, hw, hpw⟩ := hcom.2 other (List.mem_singleton_self _)
    obtain ⟨hpb, sa, sb, hsa, hsb, hs⟩ :=
      exists_of_identical_parent hf.valid.distinct ho.valid.distinct hb hab hpa hw hpw
    exact h pa w sa sb hpa hpb hsa hsb hs
  induction fuel generalizing a b with
  | zero =>
      refine ⟨stop ha hb hab fun pa pb sa sb hpa => ?_, Tree.mem_subtrees_self a⟩
      rw [climb] at hpa
      have h₁ := length_subtrees_lt_parent hf.valid.distinct hpa
      have h₂ := length_subtrees_le ((parent_eq_some_iff hf.valid.distinct).1 hpa).1
      omega
  | succ fuel ih =>
      unfold climb
      split
      · rename_i pa pb sa sb hpa hpb hsa hsb
        obtain ⟨-, -, -, -, -, hsaf, -⟩ := exists_of_sibling hf.valid.distinct hsa
        obtain ⟨-, -, -, -, -, hsbo, -⟩ := exists_of_sibling ho.valid.distinct hsb
        obtain ⟨vsa, wsa⟩ := hf.of_mem hsaf
        obtain ⟨vsb, wsb⟩ := ho.of_mem hsbo
        split_ifs with hid
        · rw [hasIdenticalSubtree_iff vsa vsb wsa wsb] at hid
          obtain ⟨hpaf, hc⟩ := (parent_eq_some_iff hf.valid.distinct).1 hpa
          have hlt := length_subtrees_lt_parent hf.valid.distinct hpa
          obtain ⟨hmax, hmem⟩ := ih hpaf ((parent_eq_some_iff ho.valid.distinct).1 hpb).1
            (identical_parent hf.valid.distinct ho.valid.distinct hab hid hsa hsb hpa hpb) (by omega)
          refine ⟨hmax, Tree.subtrees_trans ?_ hmem⟩
          obtain ⟨q, l, r, rfl, hlr⟩ := Tree.hasChild_iff.1 hc
          rw [Tree.mem_subtrees_node]
          rcases hlr with rfl | rfl
          · exact Or.inr (Or.inl (Tree.mem_subtrees_self _))
          · exact Or.inr (Or.inr (Tree.mem_subtrees_self _))
        · refine ⟨stop ha hb hab fun pa' pb' sa' sb' hpa' hpb' hsa' hsb' hs => hid ?_, Tree.mem_subtrees_self a⟩
          obtain rfl := Option.some.inj (hsa.symm.trans hsa')
          obtain rfl := Option.some.inj (hsb.symm.trans hsb')
          exact (hasIdenticalSubtree_iff vsa vsb wsa wsb).2 hs
      · rename_i hno
        refine ⟨stop ha hb hab fun pa pb sa sb hpa hpb hsa hsb => ?_, Tree.mem_subtrees_self a⟩
        exact (hno pa pb sa sb hpa hpb hsa hsb).elim

end Climb

/-- **What the roots of the maximum common subforest are**: all maximal common
subtrees, each once, so that their labels partition those of the forest. -/
structure IsMaximumCommonSubforest (f other : Forest) (roots : List Tree) : Prop where
  nodup : roots.Nodup
  mem_iff : ∀ v, v ∈ roots ↔ IsMaximalCommon f [other] v
  disjoint : roots.Pairwise fun u v => Disjoint u.labels v.labels
  labels : Forest.labels roots = f.labels

/-- **Where decoding does no harm.**  Every terminal of a maximal common subtree is
marked with the others of it, and some terminal of it with no other subtree. -/
structure DecodesWell (f other : Forest) : Prop where
  marked : ∀ v, IsMaximalCommon f [other] v → ∀ x ∈ v.labels, ∀ y ∈ v.labels, x ≠ y → y ∈ decoded v.subtreeTerminals
  unmarked : ∀ v, IsMaximalCommon f [other] v → ∃ x ∈ v.labels, ∀ u, IsMaximalCommon f [other] u → u ≠ v →
    x ∉ decoded u.subtreeTerminals

section Uncollapsed

variable {f other : Forest} {v : Tree}

/-- **Without collapsed leaves** decoding does harm exactly where a maximal common
subtree has a label on one of the last two bits of a word and another one in a later word. -/
theorem decodesWell_iff (hf : f.Valid) (hun : ∀ p x m, Tree.leaf p x m ∈ f.subtrees → m = ∅) :
    DecodesWell f other ↔ ∀ v, IsMaximalCommon f [other] v → Bitset.EndsEarly v.labels := by
  have heq : ∀ v ∈ f.subtrees, v.subtreeTerminals = v.labels := fun v hv => by
    obtain ⟨t, ht, hvt⟩ := mem_subtrees.1 hv
    exact Tree.subtreeTerminals_eq_labels fun p x m hm =>
      hun p x m (mem_subtrees.2 ⟨t, ht, Tree.subtrees_trans hm hvt⟩)
  constructor
  · intro h v hv
    refine Bitset.endsEarly_of_subset (fun x hx => hf.label_pos (subset_labels (labels_mem_clusters hv.1.1) hx)) ?_
    have := h.marked v hv
    rwa [heq v hv.1.1] at this
  · intro h
    have hid : ∀ v, IsMaximalCommon f [other] v → decoded v.subtreeTerminals = v.labels := fun v hv => by
      rw [heq v hv.1.1, (h v hv).decoded_eq]
    refine ⟨fun v hv x hx y hy _ => by rwa [hid v hv], fun v hv => ?_⟩
    obtain ⟨x, hx⟩ := v.labels_nonempty
    exact ⟨x, hx, fun u hu hne hxu => hne (hu.eq_of_mem hf.distinct hv (hid u hu ▸ hxu) hx)⟩

end Uncollapsed

section Roots

variable {width : ℕ} {f other : Forest} {leaf v : Tree} {leaves : List Tree} {V : Finset Label}

/-- The labels marked for a node. -/
def marks (width : ℕ) (root : Tree) : Finset Label := (decode (encode width root.subtreeTerminals) 1).toFinset

/-- What is marked at a node is what is decoded from its words. -/
theorem Fits.marks_eq (hf : f.Fits width) (hv : v ∈ f.subtrees) : marks width v = decoded v.subtreeTerminals :=
  Bitset.decode_encode (hf.of_mem hv).2

/-- **One terminal**: it is skipped, or the maximal common subtree around it is
returned. -/
theorem commonRoots_cons (hf : f.Fits width) (ho : other.Fits width) (hterm : SameTerminals f other)
    (hleaf : leaf ∈ f.subtrees) (hterminal : leaf.isTerminal = true) :
    ∃ root, IsMaximalCommon f [other] root ∧ leaf ∈ root.subtrees ∧ ∀ leaves V,
      commonRoots width f other (leaf :: leaves) V =
        if leaf.least ∈ V then commonRoots width f other leaves V
        else (commonRoots width f other leaves (V ∪ marks width root)).map (root :: ·) := by
  cases leaf with
  | node => cases hterminal
  | leaf p x m =>
      obtain ⟨q, hq⟩ := (hterm x m).1 ⟨p, hleaf⟩
      have hid : (Tree.leaf p x m).Identical (.leaf q x m) := ⟨rfl, rfl⟩
      obtain ⟨hmax, hmem⟩ := climb_spec hf ho hleaf hq hid (Nat.le_add_right f.subtrees.length _)
      refine ⟨_, hmax, hmem, fun leaves V => ?_⟩
      have hother : other.labelToTerminal x = some (.leaf q x m) := labelToTerminal_leaf ho.valid hq
      change _ = if x ∈ V then _ else _
      rw [commonRoots]
      simp only [Tree.terminalToLabel, Option.bind_eq_bind, Option.bind_some, hother]
      by_cases hV : x ∈ V
      · rw [if_pos hV, if_pos hV]
      · rw [if_neg hV, if_neg hV, Option.map_eq_bind]
        rfl

/-- Every root that is returned is that of a maximal common subtree around one of the
terminals; and the terminals can be looked at in two parts. -/
theorem commonRoots_append (hf : f.Fits width) (ho : other.Fits width) (hterm : SameTerminals f other)
    (hleaves : ∀ l ∈ leaves, l ∈ f.subtrees ∧ l.isTerminal = true) (V : Finset Label) (rest : List Tree) :
    ∃ roots, (∀ v ∈ roots, IsMaximalCommon f [other] v ∧ ∃ l ∈ leaves, l ∈ v.subtrees) ∧
      commonRoots width f other (leaves ++ rest) V =
        (commonRoots width f other rest (roots.foldl (fun V v => V ∪ marks width v) V)).map (roots ++ ·) := by
  induction leaves generalizing V with
  | nil => exact ⟨[], fun v hv => absurd hv List.not_mem_nil, by simp⟩
  | cons leaf leaves ih =>
      rw [List.forall_mem_cons] at hleaves
      obtain ⟨root, hmax, hmem, heq⟩ := commonRoots_cons hf ho hterm hleaves.1.1 hleaves.1.2
      rw [List.cons_append, heq]
      split_ifs with hV
      · obtain ⟨roots, hroots, hrun⟩ := ih hleaves.2 V
        refine ⟨roots, fun v hv => ?_, hrun⟩
        obtain ⟨h, l, hl, hlv⟩ := hroots v hv
        exact ⟨h, l, List.mem_cons_of_mem _ hl, hlv⟩
      · obtain ⟨roots, hroots, hrun⟩ := ih hleaves.2 (V ∪ marks width root)
        refine ⟨root :: roots, fun v hv => ?_, ?_⟩
        · rcases List.mem_cons.1 hv with rfl | hv
          · exact ⟨hmax, leaf, List.mem_cons_self .., hmem⟩
          · obtain ⟨h, l, hl, hlv⟩ := hroots v hv
            exact ⟨h, l, List.mem_cons_of_mem _ hl, hlv⟩
        · rw [hrun, Option.map_map, List.foldl_cons]
          rfl

/-- What is marked after some roots. -/
theorem mem_foldl_marks {roots : List Tree} {x : Label} :
    x ∈ roots.foldl (fun V v => V ∪ marks width v) V ↔ x ∈ V ∨ ∃ v ∈ roots, x ∈ marks width v := by
  induction roots generalizing V with
  | nil => simp
  | cons v roots ih => rw [List.foldl_cons, ih, Finset.mem_union, List.exists_mem_cons_iff, or_assoc]

/-- Two terminals with the same label are one. -/
theorem eq_of_least_eq {a b : Tree} (hf : f.Valid) (ha : a ∈ f.subtrees) (hb : b ∈ f.subtrees)
    (ta : a.isTerminal = true) (tb : b.isTerminal = true) (h : a.least = b.least) : a = b := by
  cases a with
  | node => cases ta
  | leaf p x m =>
      cases b with
      | node => cases tb
      | leaf q y m' =>
          obtain rfl : x = y := h
          exact eq_of_labels_eq hf.distinct ha hb rfl

/-- The terminal of a label in a subtree. -/
theorem exists_terminal_of_mem (hv : v ∈ f.subtrees) {x : Label} (hx : x ∈ v.labels) :
    ∃ l, l ∈ f.subtrees ∧ l.isTerminal = true ∧ l.least = x ∧ l ∈ v.subtrees := by
  obtain ⟨p, m, hl⟩ := Tree.exists_leaf hx
  obtain ⟨t, ht, hvt⟩ := mem_subtrees.1 hv
  exact ⟨_, mem_subtrees.2 ⟨t, ht, Tree.subtrees_trans hl hvt⟩, rfl, rfl, hl⟩

/-- The least label of a subtree is a label of the tree. -/
theorem least_mem_of_mem {l : Tree} (h : l ∈ v.subtrees) : l.least ∈ v.labels :=
  Tree.labels_subset_of_mem_subtrees h l.least_mem_labels

/-- Every terminal lies in a maximal common subtree. -/
theorem exists_isMaximalCommon (hf : f.Fits width) (ho : other.Fits width) (hterm : SameTerminals f other)
    (hleaf : leaf ∈ f.subtrees) (hterminal : leaf.isTerminal = true) :
    ∃ v, IsMaximalCommon f [other] v ∧ leaf ∈ v.subtrees := by
  obtain ⟨root, hmax, hmem, -⟩ := commonRoots_cons hf ho hterm hleaf hterminal
  exact ⟨root, hmax, hmem⟩

/-- Once each maximal common subtree is returned, their labels partition those of the
forest. -/
theorem IsMaximumCommonSubforest.of_mem_iff (hf : f.Fits width) (ho : other.Fits width) (hterm : SameTerminals f other)
    {roots : List Tree} (hnodup : roots.Nodup) (hmem : ∀ v, v ∈ roots ↔ IsMaximalCommon f [other] v) :
    IsMaximumCommonSubforest f other roots where
  nodup := hnodup
  mem_iff := hmem
  disjoint := by
    refine hnodup.pairwise_of_forall_ne fun u hu v hv hne => Finset.disjoint_left.2 fun x hxu hxv => hne ?_
    exact ((hmem u).1 hu).eq_of_mem hf.valid.distinct ((hmem v).1 hv) hxu hxv
  labels := by
    ext x
    rw [mem_labels]
    constructor
    · rintro ⟨v, hv, hx⟩
      obtain ⟨t, ht, hvt⟩ := mem_subtrees.1 ((hmem v).1 hv).1.1
      exact mem_labels.2 ⟨t, ht, Tree.labels_subset_of_mem_subtrees hvt hx⟩
    · intro hx
      obtain ⟨p, m, hl⟩ := exists_leaf hx
      obtain ⟨v, hv, hlv⟩ := exists_isMaximalCommon hf ho hterm hl rfl
      exact ⟨v, (hmem v).2 hv, least_mem_of_mem hlv⟩

/-- **A run in which decoding does no harm**: after the roots `R`, no root is
pushed twice, and every terminal ends up in a root or marked by one. -/
theorem commonRoots_of_decodesWell (hf : f.Fits width) (ho : other.Fits width) (hterm : SameTerminals f other)
    (hgood : DecodesWell f other) {R : List Tree} (hleaves : ∀ l ∈ leaves, l ∈ f.subtrees ∧ l.isTerminal = true)
    (hnodup : leaves.Nodup) (hV : ∀ x, x ∈ V ↔ ∃ v ∈ R, x ∈ marks width v)
    (hpushed : ∀ v ∈ R, IsMaximalCommon f [other] v ∧ ∃ x ∈ v.labels, ∀ l ∈ leaves, l.least ≠ x)
    (hpn : R.Nodup) :
    ∃ roots, commonRoots width f other leaves V = some roots ∧ (R ++ roots).Nodup ∧
      (∀ v ∈ roots, IsMaximalCommon f [other] v) ∧
      ∀ l ∈ leaves, ∃ v ∈ R ++ roots, l ∈ v.subtrees ∨ l.least ∈ marks width v := by
  induction leaves generalizing V R with
  | nil =>
      exact ⟨[], rfl, by rwa [List.append_nil], fun v hv => absurd hv List.not_mem_nil,
        fun l hl => absurd hl List.not_mem_nil⟩
  | cons leaf leaves ih =>
      rw [List.forall_mem_cons] at hleaves
      rw [List.nodup_cons] at hnodup
      obtain ⟨root, hmax, hmem, heq⟩ := commonRoots_cons hf ho hterm hleaves.1.1 hleaves.1.2
      rw [heq]
      have hpushed' : ∀ v ∈ R, IsMaximalCommon f [other] v ∧ ∃ x ∈ v.labels, ∀ l ∈ leaves, l.least ≠ x :=
        fun v hv => by
          obtain ⟨h, x, hx, hne⟩ := hpushed v hv
          exact ⟨h, x, hx, fun l hl => hne l (List.mem_cons_of_mem _ hl)⟩
      by_cases hmark : leaf.least ∈ V
      · rw [if_pos hmark]
        obtain ⟨roots, hrun, hn, hroots, hall⟩ := ih hleaves.2 hnodup.2 hV hpushed' hpn
        refine ⟨roots, hrun, hn, hroots, List.forall_mem_cons.2 ⟨?_, hall⟩⟩
        obtain ⟨v, hv, hmv⟩ := (hV _).1 hmark
        exact ⟨v, List.mem_append_left _ hv, Or.inr hmv⟩
      · rw [if_neg hmark]
        -- a root that was pushed before has marked the terminal
        have hnew : root ∉ R := fun hp => by
          obtain ⟨-, x, hx, hne⟩ := hpushed root hp
          refine hmark ((hV _).2 ⟨root, hp, ?_⟩)
          rw [hf.marks_eq hmax.1.1]
          exact hgood.marked root hmax x hx _ (least_mem_of_mem hmem) (hne leaf (List.mem_cons_self ..)).symm
        obtain ⟨roots, hrun, hn, hroots, hall⟩ := ih (V := V ∪ marks width root) (R := R ++ [root])
          hleaves.2 hnodup.2 (fun x => by
            simp only [Finset.mem_union, hV, List.mem_append, List.mem_singleton, or_and_right, exists_or,
              exists_eq_left])
          (fun v hv => by
            rcases List.mem_append.1 hv with hv | hv
            · exact hpushed' v hv
            · obtain rfl := List.mem_singleton.1 hv
              refine ⟨hmax, leaf.least, least_mem_of_mem hmem, fun l hl he => hnodup.1 ?_⟩
              have := hleaves.2 l hl
              rwa [← eq_of_least_eq hf.valid this.1 hleaves.1.1 this.2 hleaves.1.2 he])
          (List.nodup_append.2 ⟨hpn, List.nodup_singleton _, fun v hv u hu =>
            fun he => hnew (List.mem_singleton.1 hu ▸ he ▸ hv)⟩)
        rw [List.append_assoc, List.singleton_append] at hn hall
        refine ⟨root :: roots, by rw [hrun]; rfl, hn, List.forall_mem_cons.2 ⟨hmax, hroots⟩,
          List.forall_mem_cons.2 ⟨⟨root, List.mem_append_right _ (List.mem_cons_self ..), Or.inl hmem⟩, hall⟩⟩

/-- **Where decoding does no harm, the roots are right**, in whatever order the
terminals are looked at. -/
theorem isMaximumCommonSubforest_of_decodesWell (hf : f.Fits width) (ho : other.Fits width)
    (hterm : SameTerminals f other) (hgood : DecodesWell f other) {terminals : List Tree}
    (hperm : terminals.Perm (f.subtrees.filter Tree.isTerminal)) :
    ∃ roots, maximumCommonSubforestRoots width f other terminals = some roots ∧
      IsMaximumCommonSubforest f other roots := by
  have hiff : ∀ l, l ∈ terminals ↔ l ∈ f.subtrees ∧ l.isTerminal = true := fun l => by
    rw [hperm.mem_iff, List.mem_filter]
  obtain ⟨roots, hrun, hnodup, hroots, hall⟩ := commonRoots_of_decodesWell hf ho hterm hgood (V := ∅) (R := [])
    (fun l hl => (hiff l).1 hl) (hperm.nodup_iff.2 (hf.valid.distinct.nodup_subtrees.filter _)) (by simp)
    (fun v hv => absurd hv List.not_mem_nil) List.nodup_nil
  rw [List.nil_append] at hnodup hall
  refine ⟨roots, hrun, .of_mem_iff hf ho hterm hnodup fun v => ⟨hroots v, fun hv => ?_⟩⟩
  obtain ⟨x, hx, hother⟩ := hgood.unmarked v hv
  obtain ⟨l, hl, hterminal, rfl, hlv⟩ := exists_terminal_of_mem hv.1.1 hx
  obtain ⟨u, hu, h⟩ := hall l ((hiff l).2 ⟨hl, hterminal⟩)
  have huv : u = v := by
    rcases h with h | h
    · exact (hroots u hu).eq_of_mem hf.valid.distinct hv (least_mem_of_mem h) hx
    · by_contra hne
      rw [hf.marks_eq (hroots u hu).1.1] at h
      exact hother u (hroots u hu) hne h
  exact huv ▸ hu

/-- Terminals that are all marked are skipped. -/
theorem commonRoots_of_marked (hf : f.Fits width) (ho : other.Fits width) (hterm : SameTerminals f other)
    (hleaves : ∀ l ∈ leaves, l ∈ f.subtrees ∧ l.isTerminal = true) (hV : ∀ l ∈ leaves, l.least ∈ V) :
    commonRoots width f other leaves V = some [] := by
  induction leaves with
  | nil => rfl
  | cons leaf leaves ih =>
      rw [List.forall_mem_cons] at hleaves hV
      obtain ⟨root, -, -, hrun⟩ := commonRoots_cons hf ho hterm hleaves.1.1 hleaves.1.2
      rw [hrun, if_pos hV.1]
      exact ih hleaves.2 hV.2

/-- **Where the roots are right in every order, decoding does no harm.**  A label that
is not marked with another one of its subtree makes the subtree be returned twice; a subtree
whose labels are all marked with other ones is missed when its terminals come last. -/
theorem decodesWell_of_forall (hf : f.Fits width) (ho : other.Fits width) (hterm : SameTerminals f other)
    (hall : ∀ terminals, terminals.Perm (f.subtrees.filter Tree.isTerminal) →
      ∃ roots, maximumCommonSubforestRoots width f other terminals = some roots ∧
        IsMaximumCommonSubforest f other roots) : DecodesWell f other := by
  have hmemT : ∀ {l : Tree}, l ∈ f.subtrees.filter Tree.isTerminal ↔ l ∈ f.subtrees ∧ l.isTerminal = true :=
    List.mem_filter
  refine ⟨fun v hv x hx y hy hxy => ?_, fun v hv => ?_⟩
  · by_contra hno
    obtain ⟨lx, hlx, tx, rfl, hxv⟩ := exists_terminal_of_mem hv.1.1 hx
    obtain ⟨ly, hly, ty, rfl, hyv⟩ := exists_terminal_of_mem hv.1.1 hy
    have hne : ly ≠ lx := fun h => hxy (h ▸ rfl)
    have hperm : (lx :: ly :: ((f.subtrees.filter Tree.isTerminal).erase lx).erase ly).Perm
        (f.subtrees.filter Tree.isTerminal) :=
      ((List.perm_cons_erase ((List.mem_erase_of_ne hne).2 (hmemT.2 ⟨hly, ty⟩))).symm.cons lx).trans
        (List.perm_cons_erase (hmemT.2 ⟨hlx, tx⟩)).symm
    obtain ⟨roots, hrun, hroots⟩ := hall _ hperm
    obtain ⟨v₁, hmax₁, hmem₁, heq₁⟩ := commonRoots_cons hf ho hterm hlx tx
    obtain ⟨v₂, hmax₂, hmem₂, heq₂⟩ := commonRoots_cons hf ho hterm hly ty
    obtain rfl := hmax₁.eq_of_mem hf.valid.distinct hv (least_mem_of_mem hmem₁) hx
    obtain rfl := hmax₂.eq_of_mem hf.valid.distinct hv (least_mem_of_mem hmem₂) hy
    rw [maximumCommonSubforestRoots, heq₁, if_neg (Finset.notMem_empty _), heq₂, if_neg (by
      rw [Finset.empty_union, hf.marks_eq hv.1.1]; exact hno), Option.map_map] at hrun
    obtain ⟨rest, -, rfl⟩ := Option.map_eq_some_iff.1 hrun
    exact (List.nodup_cons.1 hroots.nodup).1 (List.mem_cons_self ..)
  · by_contra hno
    push Not at hno
    let outside := (f.subtrees.filter Tree.isTerminal).filter fun l => decide (l.least ∉ v.labels)
    let inside := (f.subtrees.filter Tree.isTerminal).filter fun l => !decide (l.least ∉ v.labels)
    obtain ⟨roots, hrun, hroots⟩ := hall (outside ++ inside) (List.filter_append_perm ..)
    have houtside : ∀ l ∈ outside, l ∈ f.subtrees ∧ l.isTerminal = true :=
      fun l hl => hmemT.1 (List.mem_of_mem_filter hl)
    have hinside : ∀ l ∈ inside, l ∈ f.subtrees ∧ l.isTerminal = true :=
      fun l hl => hmemT.1 (List.mem_of_mem_filter hl)
    obtain ⟨before, hbefore, hrun₁⟩ := commonRoots_append hf ho hterm houtside ∅ inside
    obtain ⟨after, hafter, hrun₂⟩ :=
      commonRoots_append hf ho hterm hinside (before.foldl (fun V v => V ∪ marks width v) ∅) []
    rw [List.append_nil, commonRoots, Option.map_some, List.append_nil] at hrun₂
    rw [maximumCommonSubforestRoots, hrun₁, hrun₂] at hrun
    obtain rfl := Option.some.inj hrun
    -- all other subtrees are returned before the terminals of `v` are looked at
    have hothers : ∀ u, IsMaximalCommon f [other] u → u ≠ v → u ∈ before := fun u hu hne => by
      refine (List.mem_append.1 ((hroots.mem_iff u).2 hu)).resolve_right fun hua => hne ?_
      obtain ⟨-, l, hl, hlu⟩ := hafter u hua
      have hlv : l.least ∈ v.labels := by simpa using (List.mem_filter.1 hl).2
      exact hu.eq_of_mem hf.valid.distinct hv (least_mem_of_mem hlu) hlv
    have hmarked : ∀ x ∈ v.labels, x ∈ before.foldl (fun V v => V ∪ marks width v) ∅ := fun x hx => by
      obtain ⟨u, hu, hne, hxu⟩ := hno x hx
      exact mem_foldl_marks.2 (Or.inr ⟨u, hothers u hu hne, by rwa [hf.marks_eq hu.1.1]⟩)
    rw [commonRoots_of_marked hf ho hterm hinside
      fun l hl => hmarked _ (by simpa using (List.mem_filter.1 hl).2)] at hrun₂
    obtain rfl := Option.some.inj hrun₂
    replace hroots : IsMaximumCommonSubforest f other before := List.append_nil before ▸ hroots
    obtain ⟨-, l, hl, hlv⟩ := hbefore v ((hroots.mem_iff v).2 hv)
    exact absurd (least_mem_of_mem hlv) (by simpa using (List.mem_filter.1 hl).2)

/-- **When `maximumCommonSubforestRoots` is right**: it returns the maximal common
subtrees, each once, in whatever order the terminals are iterated, exactly where decoding
the words does no harm. -/
theorem maximumCommonSubforestRoots_correct_iff (hf : f.Fits width) (ho : other.Fits width)
    (hterm : SameTerminals f other) :
    (∀ terminals, terminals.Perm (f.subtrees.filter Tree.isTerminal) →
      ∃ roots, maximumCommonSubforestRoots width f other terminals = some roots ∧
        IsMaximumCommonSubforest f other roots) ↔ DecodesWell f other :=
  ⟨decodesWell_of_forall hf ho hterm, fun h _ => isMaximumCommonSubforest_of_decodesWell hf ho hterm h⟩

/-- Two copies of the cherry over the labels `1` and `2`, and a third leaf at different places. -/
theorem maximumCommonSubforestRoots_correct_iff_threeLeaves :
    (∀ terminals, terminals.Perm [.leaf 2 1 ∅, .leaf 3 2 ∅, .leaf 4 3 ∅] →
      ∃ roots, maximumCommonSubforestRoots 1 [.node 0 (.node 1 (.leaf 2 1 ∅) (.leaf 3 2 ∅)) (.leaf 4 3 ∅)]
          [.node 0 (.leaf 1 1 ∅) (.leaf 2 2 ∅), .leaf 3 3 ∅] terminals = some roots ∧
        IsMaximumCommonSubforest [.node 0 (.node 1 (.leaf 2 1 ∅) (.leaf 3 2 ∅)) (.leaf 4 3 ∅)]
          [.node 0 (.leaf 1 1 ∅) (.leaf 2 2 ∅), .leaf 3 3 ∅] roots) ↔
      DecodesWell [.node 0 (.node 1 (.leaf 2 1 ∅) (.leaf 3 2 ∅)) (.leaf 4 3 ∅)]
        [.node 0 (.leaf 1 1 ∅) (.leaf 2 2 ∅), .leaf 3 3 ∅] :=
  maximumCommonSubforestRoots_correct_iff (f := [.node 0 (.node 1 (.leaf 2 1 ∅) (.leaf 3 2 ∅)) (.leaf 4 3 ∅)])
    ⟨by decide, by decide⟩ ⟨by decide, by decide⟩ (by intro x m; simp [subtrees, Tree.subtrees, exists_or])

/-- **Two copies of the cherry over `64` and `65`**: the cherry is returned twice. -/
theorem maximumCommonSubforestRoots_not_correct :
    ¬∀ (width : ℕ) (f other : Forest), f.Fits width → other.Fits width → SameTerminals f other →
      ∀ terminals, terminals.Perm (f.subtrees.filter Tree.isTerminal) →
        ∃ roots, maximumCommonSubforestRoots width f other terminals = some roots ∧
          IsMaximumCommonSubforest f other roots := by
  intro h
  have hfits : Fits 2 [.node 0 (.leaf 1 64 ∅) (.leaf 2 65 ∅)] := ⟨by decide, by decide⟩
  obtain ⟨roots, hrun, hroots⟩ := h 2 [.node 0 (.leaf 1 64 ∅) (.leaf 2 65 ∅)] [.node 0 (.leaf 1 64 ∅) (.leaf 2 65 ∅)]
    hfits hfits (fun _ _ => Iff.rfl) _ (List.Perm.refl _)
  have htwice : maximumCommonSubforestRoots 2 [.node 0 (.leaf 1 64 ∅) (.leaf 2 65 ∅)]
      [.node 0 (.leaf 1 64 ∅) (.leaf 2 65 ∅)] [.leaf 1 64 ∅, .leaf 2 65 ∅] =
        some [.node 0 (.leaf 1 64 ∅) (.leaf 2 65 ∅), .node 0 (.leaf 1 64 ∅) (.leaf 2 65 ∅)] := by
    decide +kernel
  obtain rfl := Option.some.inj (htwice.symm.trans hrun)
  exact absurd hroots.nodup (by decide)

end Roots

end Forest

end Maf
