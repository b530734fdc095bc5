/-
# Sets of positive numbers as words of 64 bits

The set is a list of words; bit `j` of word `i` stands for the number
`64 * i + j + 1`, as there is no number `0`.  A set within the width of the list
is written with `encode`; the operations on the words are those on the sets, and
the comparison of two disjoint sets by their smallest element looks at the first
words that differ only (`hasSmallest_encode`).
-/

import Mathlib.Data.Finset.SymmDiff
import Mathlib.Order.SymmDiff
import Mathlib.Tactic

namespace Bitset

/-- `uint64_t`. -/
abbrev Word := BitVec 64

/-- `__builtin_ctzll`, with `64` for the word `0`. -/
def ctz (x : Word) : ℕ := x.ctz.toNat

/-- The word `i` of a set. -/
def word (S : Finset ℕ) (i : ℕ) : Word :=
  (BitVec.iunfoldr (fun (j : Fin 64) (_ : Unit) => ((), decide (64 * i + j + 1 ∈ S))) ()).2

/-- The first `width` words of a set. -/
def encode (width : ℕ) (S : Finset ℕ) : List Word := (List.range width).map (word S)

/-- The bit of a number. -/
def mem (ws : List Word) (x : ℕ) : Bool := (ws.getD ((x - 1) / 64) 0).getLsbD ((x - 1) % 64)

/-- Compares two sets by the first words that differ: the one with fewer trailing
zeros has the smaller element. -/
def hasSmallest : List Word → List Word → Bool
  | x :: xs, y :: ys => if x = y then hasSmallest xs ys else decide (ctz x < ctz y)
  | _, _ => false

/-- The first words of the set that holds `x` only. -/
def single (width x : ℕ) : List Word := (List.replicate width 0).set ((x - 1) / 64) ((1 : Word) <<< ((x - 1) % 64))

/-- The set with `x` put in or taken out. -/
def toggle (ws : List Word) (x : ℕ) : List Word :=
  ws.modify ((x - 1) / 64) fun w => w ^^^ (1 : Word) <<< ((x - 1) % 64)

/-- All bits of the first set are bits of the second. -/
def hasSubset : List Word → List Word → Bool
  | x :: xs, y :: ys => if x ||| y = y then hasSubset xs ys else false
  | _, _ => true

/-- The elements, as the loop over the lowest set bits of the words meets them. -/
def elements (ws : List Word) : List ℕ := ((List.range (64 * ws.length)).map (· + 1)).filter (mem ws)

/-- All elements lie within the width. -/
def Within (width : ℕ) (S : Finset ℕ) : Prop := ∀ x ∈ S, 0 < x ∧ x ≤ 64 * width

instance (width : ℕ) (S : Finset ℕ) : Decidable (Within width S) :=
  inferInstanceAs (Decidable (∀ x ∈ S, 0 < x ∧ x ≤ 64 * width))

/-- A subset fits the width as well. -/
theorem Within.mono {width : ℕ} {S T : Finset ℕ} (h : Within width T) (hST : S ⊆ T) : Within width S :=
  fun x hx => h x (hST hx)

/-- A set is stored in as many words as the width says. -/
@[simp] theorem length_encode (width : ℕ) (S : Finset ℕ) : (encode width S).length = width := by
  simp [encode]

/-- The bits of a word. -/
theorem getLsbD_word (S : Finset ℕ) (i : ℕ) {j : ℕ} (hj : j < 64) :
    (word S i).getLsbD j = decide (64 * i + j + 1 ∈ S) := by
  exact BitVec.iunfoldr_getLsbD (fun _ => ()) (⟨j, hj⟩ : Fin 64) fun _ => rfl

/-- A word is determined by its bits. -/
theorem word_ext {S : Finset ℕ} {i : ℕ} {x : Word}
    (h : ∀ j < 64, x.getLsbD j = decide (64 * i + j + 1 ∈ S)) : x = word S i :=
  BitVec.eq_of_getLsbD_eq fun j hj => by rw [h j hj, getLsbD_word S i hj]

/-- The words of an encoded set. -/
theorem getD_encode {width : ℕ} {S : Finset ℕ} {i : ℕ} (hi : i < width) :
    (encode width S).getD i 0 = word S i := by
  simp [encode, List.getD_eq_getElem?_getD, hi]

/-- **`hasTerminal`** reads membership off the words. -/
theorem mem_encode {width : ℕ} {S : Finset ℕ} {x : ℕ} (hx : 0 < x) (hw : x ≤ 64 * width) :
    mem (encode width S) x = decide (x ∈ S) := by
  have hi : (x - 1) / 64 < width := by omega
  have hj : (x - 1) % 64 < 64 := Nat.mod_lt _ (by omega)
  rw [mem, getD_encode hi, getLsbD_word S _ hj, show 64 * ((x - 1) / 64) + (x - 1) % 64 + 1 = x by omega]

/-- The loop meets the elements of the set. -/
theorem mem_elements {width : ℕ} {S : Finset ℕ} (hS : Within width S) {x : ℕ} :
    x ∈ elements (encode width S) ↔ x ∈ S := by
  simp only [elements, length_encode, List.mem_filter, List.mem_map, List.mem_range]
  constructor
  · rintro ⟨⟨i, hi, rfl⟩, hx⟩
    rw [mem_encode (Nat.succ_pos i) hi] at hx
    exact of_decide_eq_true hx
  · intro hx
    obtain ⟨hpos, hle⟩ := hS x hx
    refine ⟨⟨x - 1, by omega, by omega⟩, ?_⟩
    rw [mem_encode hpos hle]
    exact decide_eq_true hx

/-- The smallest element comes first. -/
theorem pairwise_elements (ws : List Word) : (elements ws).Pairwise (· < ·) := by
  refine List.Pairwise.filter _ (List.pairwise_map.2 ?_)
  exact List.pairwise_lt_range.imp fun h => Nat.succ_lt_succ h

/-- The words determine the set. -/
theorem encode_inj {width : ℕ} {S T : Finset ℕ} (hS : Within width S) (hT : Within width T)
    (h : encode width S = encode width T) : S = T := by
  ext x
  by_cases hx : 0 < x ∧ x ≤ 64 * width
  · have := mem_encode (S := S) hx.1 hx.2
    rw [h, mem_encode hx.1 hx.2] at this
    simpa using this.symm
  · exact ⟨fun h => absurd (hS x h) hx, fun h => absurd (hT x h) hx⟩

/-- An operation on the words is one on the sets. -/
theorem zipWith_encode {f : Word → Word → Word} {S T U : Finset ℕ} (width : ℕ)
    (h : ∀ i, f (word S i) (word T i) = word U i) :
    List.zipWith f (encode width S) (encode width T) = encode width U := by
  rw [encode, encode, encode, List.zipWith_map_left, List.zipWith_map_right, List.zipWith_self]
  exact List.map_congr_left fun i _ => h i

/-- Bitwise or is the union. -/
theorem or_encode (width : ℕ) (S T : Finset ℕ) :
    List.zipWith (· ||| ·) (encode width S) (encode width T) = encode width (S ∪ T) := by
  refine zipWith_encode width fun i => word_ext fun j hj => ?_
  rw [BitVec.getLsbD_or, getLsbD_word S i hj, getLsbD_word T i hj]
  simp

/-- Bitwise exclusive or is the symmetric difference. -/
theorem xor_encode (width : ℕ) (S T : Finset ℕ) :
    List.zipWith (· ^^^ ·) (encode width S) (encode width T) = encode width (symmDiff S T) := by
  refine zipWith_encode width fun i => word_ext fun j hj => ?_
  rw [BitVec.getLsbD_xor, getLsbD_word S i hj, getLsbD_word T i hj]
  simp only [Finset.mem_symmDiff]
  by_cases hS : 64 * i + j + 1 ∈ S <;> by_cases hT : 64 * i + j + 1 ∈ T <;> simp [hS, hT]

/-- Removing a subset. -/
theorem xor_encode_subset (width : ℕ) {S T : Finset ℕ} (h : T ⊆ S) :
    List.zipWith (· ^^^ ·) (encode width S) (encode width T) = encode width (S \ T) := by
  rw [xor_encode, symmDiff_of_ge h]

/-- The bit of a single number. -/
theorem getLsbD_bit {x i j : ℕ} (hx : 0 < x) (hj : j < 64) (hi : (x - 1) / 64 = i) :
    ((1 : Word) <<< ((x - 1) % 64)).getLsbD j = decide (64 * i + j + 1 = x) := by
  rw [BitVec.getLsbD_shiftLeft, show (1 : Word) = 1#64 from rfl, BitVec.getLsbD_one, Bool.eq_iff_iff]
  simp only [Bool.and_eq_true, decide_eq_true_eq, Bool.not_eq_true', decide_eq_false_iff_not]
  omega

/-- **The `^=` of one bit** puts a number in or takes it out. -/
theorem toggle_encode {width x : ℕ} (hx : 0 < x) (S : Finset ℕ) :
    toggle (encode width S) x = encode width (symmDiff S {x}) := by
  refine List.ext_getElem? fun i => ?_
  rw [toggle, List.getElem?_modify]
  by_cases hw : i < width
  · simp only [encode, List.getElem?_map, List.getElem?_range hw, Option.map_some]
    split_ifs with hi
    · refine congrArg some (word_ext fun j hj => ?_)
      rw [BitVec.getLsbD_xor, getLsbD_word S i hj, getLsbD_bit hx hj hi]
      simp only [Finset.mem_symmDiff, Finset.mem_singleton]
      by_cases hS : 64 * i + j + 1 ∈ S <;> by_cases he : 64 * i + j + 1 = x <;> simp [hS, he]
    · refine congrArg some (word_ext fun j hj => ?_)
      rw [getLsbD_word S i hj]
      have hne : 64 * i + j + 1 ≠ x := by omega
      simp [Finset.mem_symmDiff, hne]
  · simp [encode, List.getElem?_eq_none (show (List.range width).length ≤ i by simpa using hw)]

/-- A single bit is the set of one number. -/
theorem single_eq {width x : ℕ} (hx : 0 < x) : single width x = encode width {x} := by
  have hzero : List.replicate width (0 : Word) = encode width ∅ := by
    refine List.ext_getElem (by simp) fun i hi _ => ?_
    simp only [List.getElem_replicate, encode, List.getElem_map]
    exact word_ext fun j hj => by simp
  rw [← symmDiff_bot ({x} : Finset ℕ), symmDiff_comm, Finset.bot_eq_empty, ← toggle_encode hx, ← hzero, single,
    toggle]
  refine List.ext_getElem? fun i => ?_
  rw [List.getElem?_set, List.getElem?_modify]
  by_cases hw : i < width
  · split_ifs with hi hlen
    · simp [hw]
    · exact absurd (by simpa [hi] using hw) hlen
    · simp [hw]
  · split_ifs with hi hlen
    · exact absurd (by simpa [hi] using hlen) hw
    · simp [hw]
    · simp [hw]

/-- A subset passes the test. -/
theorem hasSubset_encode {width : ℕ} {S T : Finset ℕ} (h : S ⊆ T) :
    hasSubset (encode width S) (encode width T) = true := by
  have key : ∀ l : List ℕ, hasSubset (l.map (word S)) (l.map (word T)) = true := by
    intro l
    induction l with
    | nil => rfl
    | cons i l ih =>
        have hor : word S i ||| word T i = word T i := word_ext fun j hj => by
          rw [BitVec.getLsbD_or, getLsbD_word S i hj, getLsbD_word T i hj, ← Bool.decide_or]
          exact decide_eq_decide.2 (or_iff_right_of_imp fun hS => h hS)
        rw [List.map_cons, List.map_cons, hasSubset, if_pos hor, ih]
  exact key _

/-- The bits of a subset are in the set. -/
theorem mem_of_hasSubset {ws vs : List Word} {x : ℕ} (h : hasSubset ws vs = true) (hlen : ws.length = vs.length)
    (hx : mem ws x = true) : mem vs x = true := by
  unfold mem at hx ⊢
  generalize (x - 1) / 64 = i at hx ⊢
  induction ws generalizing vs i with
  | nil => simp at hx
  | cons w ws ih =>
      cases vs with
      | nil => simp at hlen
      | cons v vs =>
          rw [hasSubset] at h
          split_ifs at h with hor
          cases i with
          | zero =>
              rw [List.getD_cons_zero] at hx ⊢
              rw [← hor, BitVec.getLsbD_or, hx, Bool.true_or]
          | succ i =>
              rw [List.getD_cons_succ] at hx ⊢
              exact ih h (by simpa using hlen) i hx

/-! ### The smallest element -/

/-- A word without numbers is `0`. -/
theorem word_eq_zero {S : Finset ℕ} {i : ℕ} (h : ∀ j < 64, 64 * i + j + 1 ∉ S) : word S i = 0 := by
  refine (word_ext fun j hj => ?_).symm
  simp [h j hj]

/-- The word `0` is read as `64` trailing zeros. -/
@[simp] theorem ctz_zero : ctz 0 = 64 := by
  have h : (BitVec.reverse (0 : Word)) = 0 := BitVec.reverse_eq_zero_iff.2 rfl
  rw [ctz, BitVec.ctz, BitVec.clz_eq_iff_eq_zero.2 h]
  rfl

/-- Any other word has fewer. -/
theorem ctz_lt {x : Word} (h : x ≠ 0) : ctz x < 64 := by
  have := BitVec.ctz_lt_iff_ne_zero.2 h
  simpa [ctz, BitVec.lt_def] using this

/-- The smallest element of a word. -/
theorem ctz_mem {S : Finset ℕ} {i : ℕ} (h : ctz (word S i) < 64) : 64 * i + ctz (word S i) + 1 ∈ S := by
  have hne : word S i ≠ 0 := by
    intro h0
    rw [h0, ctz_zero] at h
    exact absurd h (lt_irrefl 64)
  have := BitVec.getLsbD_true_ctz_of_ne_zero hne
  rw [show (word S i).ctz.toNat = ctz (word S i) from rfl, getLsbD_word S i h] at this
  simpa using this

/-- No number of the set is skipped. -/
theorem ctz_le {S : Finset ℕ} {i j : ℕ} (hj : j < 64) (h : 64 * i + j + 1 ∈ S) : ctz (word S i) ≤ j := by
  by_contra hlt
  have := BitVec.getLsbD_false_of_lt_ctz (x := word S i) (i := j) (not_le.1 hlt)
  rw [getLsbD_word S i hj] at this
  simp [h] at this

/-- The comparison from the word `i` on. -/
theorem hasSmallest_words {S T : Finset ℕ} (hd : Disjoint S T) (n i : ℕ) :
    hasSmallest ((List.range' i n).map (word S)) ((List.range' i n).map (word T)) = true ↔
      ∃ x ∈ S, 64 * i < x ∧ x ≤ 64 * (i + n) ∧ ∀ y ∈ T, 64 * i < y → y ≤ 64 * (i + n) → x < y := by
  induction n generalizing i with
  | zero =>
      simp only [List.range'_zero, List.map_nil, hasSmallest, Bool.false_eq_true, false_iff]
      rintro ⟨x, -, h₁, h₂, -⟩
      omega
  | succ n ih =>
      rw [List.range'_succ, List.map_cons, List.map_cons, hasSmallest]
      split_ifs with he
      · -- both words are empty
        have hS : ∀ j < 64, 64 * i + j + 1 ∉ S := by
          intro j hj hmem
          have h := getLsbD_word S i hj
          rw [he, getLsbD_word T i hj] at h
          exact Finset.disjoint_left.1 hd hmem (by simpa [hmem] using h)
        have hT : ∀ j < 64, 64 * i + j + 1 ∉ T := by
          intro j hj hmem
          have h := getLsbD_word T i hj
          rw [← he, getLsbD_word S i hj] at h
          simp [hmem, hS j hj] at h
        have up : ∀ {U : Finset ℕ}, (∀ j < 64, 64 * i + j + 1 ∉ U) → ∀ x ∈ U, 64 * i < x → 64 * (i + 1) < x := by
          intro U hU x hx hlt
          by_contra hle
          exact hU (x - 64 * i - 1) (by omega) (by rwa [show 64 * i + (x - 64 * i - 1) + 1 = x by omega])
        rw [ih (i + 1)]
        constructor
        · rintro ⟨x, hx, h₁, h₂, hall⟩
          exact ⟨x, hx, by omega, by omega, fun y hy hy₁ hy₂ => hall y hy (up hT y hy hy₁) (by omega)⟩
        · rintro ⟨x, hx, h₁, h₂, hall⟩
          exact ⟨x, hx, up hS x hx h₁, by omega, fun y hy hy₁ hy₂ => hall y hy (by omega) (by omega)⟩
      · rw [decide_eq_true_iff]
        constructor
        · intro hlt
          have h64 : ctz (word S i) < 64 := by
            refine hlt.trans_le ?_
            by_cases h0 : word T i = 0
            · rw [h0, ctz_zero]
            · exact (ctz_lt h0).le
          refine ⟨_, ctz_mem h64, by omega, by omega, fun y hy hy₁ hy₂ => ?_⟩
          by_contra hle
          have hj : y - 64 * i - 1 < 64 := by omega
          have := ctz_le (i := i) hj (S := T) (by rwa [show 64 * i + (y - 64 * i - 1) + 1 = y by omega])
          omega
        · rintro ⟨x, hx, h₁, h₂, hall⟩
          by_contra hge
          have hT : ctz (word T i) < 64 := by
            by_contra h64
            have hT0 : word T i = 0 := by
              by_contra h0
              exact h64 (ctz_lt h0)
            have hS0 : word S i = 0 := by
              by_contra h0
              have := ctz_lt h0
              omega
            exact he (hS0.trans hT0.symm)
          have hy := hall _ (ctz_mem hT) (by omega) (by omega)
          have hj : x - 64 * i - 1 < 64 := by omega
          have := ctz_le (i := i) hj (S := S) (by rwa [show 64 * i + (x - 64 * i - 1) + 1 = x by omega])
          omega

/-- **`hasSmallestTerminal`** compares the smallest elements of disjoint sets. -/
theorem hasSmallest_encode {width : ℕ} {S T : Finset ℕ} (hd : Disjoint S T) (hS : Within width S)
    (hT : Within width T) : hasSmallest (encode width S) (encode width T) = true ↔
      ∃ x ∈ S, ∀ y ∈ T, x < y := by
  rw [encode, encode, List.range_eq_range', hasSmallest_words hd]
  constructor
  · rintro ⟨x, hx, -, -, hall⟩
    exact ⟨x, hx, fun y hy => hall y hy (by have := hT y hy; omega) (by have := hT y hy; omega)⟩
  · rintro ⟨x, hx, hall⟩
    exact ⟨x, hx, by have := hS x hx; omega, by have := hS x hx; omega, fun y hy _ _ => hall y hy⟩

end Bitset
