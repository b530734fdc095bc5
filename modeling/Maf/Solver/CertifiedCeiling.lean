/-
# The certified ceiling as it is computed

`Context::certifiedCeiling` in `src/Solver/Context.hpp` and the lines of
`ReadInstance` in `src/Graph/Instance.cpp` that set its two constants.  The code adds
`1e-9` before it takes the floor, so that a product just below an integer by binary
rounding is not rounded down; here everything is exact.

The result is `⌊a·value⌋ + b` unless the product lies within `1e-9` below the next
integer (`certifiedCeiling_eq_iff`).  The comment of the source rules that out with at
most two decimals, and eight are still enough (`certifiedCeiling_of_readHeader`), but a
header with more is read as well (`readHeader_tenDecimals`).
-/

import Maf.Graph.Newick
import Maf.Solver.BranchingSolver

namespace Maf
namespace Header

open Newick (Failure stoi)

/-- The constants of a `#a` line in the `Context`, and their defaults. -/
structure Constants where
  a : ℚ := -1
  b : ℤ := -1
  deriving DecidableEq

/-- `certifiedCeiling`. -/
def Constants.certifiedCeiling (c : Constants) (value : ℤ) : ℤ := ⌊c.a * value + 1 / 10 ^ 9⌋ + c.b

/-- `\s` in a regular expression. -/
def isSpace (c : Char) : Bool := decide (c = ' ' ∨ '\t' ≤ c ∧ c ≤ '\r')

/-- One or more characters of a class, and what follows them. -/
def many (p : Char → Bool) (cs : List Char) : Option (List Char × List Char) :=
  if cs.takeWhile p = [] then none else some (cs.takeWhile p, cs.dropWhile p)

/-- `(?:\.\d+)?`: the digits after the dot, if there is one, and what follows them. -/
def fractionalPart : List Char → Option (List Char × List Char)
  | '.' :: cs => many Char.isDigit cs
  | cs => some ([], cs)

/-- `regex_constants`, `#a\s+(\d+(?:\.\d+)?)\s+(\d+)\s*`: the digits of the first number
before and after its dot, and those of the second number. -/
def matchConstants : List Char → Option (List Char × List Char × List Char)
  | '#' :: 'a' :: cs => do
      let (_, cs) ← many isSpace cs
      let (whole, cs) ← many Char.isDigit cs
      let (fraction, cs) ← fractionalPart cs
      let (_, cs) ← many isSpace cs
      let (offset, cs) ← many Char.isDigit cs
      if cs.all isSpace then some (whole, fraction, offset) else none
  | _ => none

/-- One character of a class. -/
def one (p : Char → Bool) : List Char → Option (List Char)
  | [] => none
  | c :: cs => if p c then some cs else none

/-- `regex_header`, `#p\s(\d+)\s(\d+)\s*`. -/
def matchHeader : List Char → Option (List Char × List Char)
  | '#' :: 'p' :: cs => do
      let cs ← one isSpace cs
      let (numberOfForests, cs) ← many Char.isDigit cs
      let cs ← one isSpace cs
      let (numberOfTerminals, cs) ← many Char.isDigit cs
      if cs.all isSpace then some (numberOfForests, numberOfTerminals) else none
  | _ => none

/-- `std::stod` on digits with a dot between them, without rounding. -/
def stod (whole fraction : List Char) : ℚ := (Nat.ofDigitChars 10 (whole ++ fraction) 0 : ℚ) / 10 ^ fraction.length

/-- The loop of `ReadInstance` over the lines of the header: the constants, and the
numbers of forests and terminals. -/
def readHeader : List (List Char) → Constants → Except Failure (Constants × ℕ × ℕ)
  | [], _ => .error (.exception "Instance : no header expression")
  | line :: rest, c =>
      match matchConstants line with
      | some (whole, fraction, offset) => do
          let b ← stoi offset
          readHeader rest { a := stod whole fraction, b := b }
      | none =>
          match matchHeader line with
          | some (numberOfForests, numberOfTerminals) => do
              let t ← stoi numberOfForests
              let n ← stoi numberOfTerminals
              .ok (c, t, n)
          | none => readHeader rest c

/-- Adding less than the way to the next integer changes no floor. -/
theorem floor_add_eq_iff {q ε : ℚ} (hε : 0 ≤ ε) : ⌊q + ε⌋ = ⌊q⌋ ↔ Int.fract q < 1 - ε := by
  have hq := Int.floor_add_fract q
  rw [Int.floor_eq_iff]
  constructor
  · rintro ⟨-, h⟩
    linarith
  · intro h
    have := Int.fract_nonneg q
    constructor <;> linarith

/-- A larger bound has a larger ceiling. -/
theorem Constants.certifiedCeiling_mono {c : Constants} (ha : 0 ≤ c.a) {v w : ℤ} (h : v ≤ w) :
    c.certifiedCeiling v ≤ c.certifiedCeiling w := by
  have hvw : c.a * v ≤ c.a * w := mul_le_mul_of_nonneg_left (Int.cast_le.2 h) ha
  exact Int.add_le_add_right (Int.floor_mono (by linarith)) _

/-- The ceiling of a context as the code computes it. -/
def computedCeiling (c : Context) (value : ℤ) : ℤ := Constants.certifiedCeiling ⟨c.a, c.b⟩ value

/-- Where it is exact, it is the ceiling of the search. -/
theorem certifiedCeiling_eq_context {c : Context} {L : ℕ} (h : Int.fract (c.a * L) < 1 - 1 / 10 ^ 9) :
    Constants.certifiedCeiling ⟨c.a, c.b⟩ L = c.certifiedCeiling L := by
  rw [← floor_add_eq_iff (by norm_num)] at h
  rw [Constants.certifiedCeiling, Context.certifiedCeiling, Int.cast_natCast, h]

/-- **The ceiling is exact** unless the product lies within `1e-9` below an integer;
and it is always monotone. -/
theorem certifiedCeiling_eq_iff {c : Constants} (ha : 1 ≤ c.a) (L : ℕ) :
    (c.certifiedCeiling L = ⌊c.a * L⌋ + c.b ∧ c.certifiedCeiling L ≤ ⌊c.a * L⌋ + c.b ∧
      ∀ M : ℕ, L ≤ M → c.certifiedCeiling L ≤ c.certifiedCeiling M) ↔ Int.fract (c.a * L) < 1 - 1 / 10 ^ 9 := by
  have hiff : c.certifiedCeiling L = ⌊c.a * L⌋ + c.b ↔ Int.fract (c.a * L) < 1 - 1 / 10 ^ 9 := by
    rw [← floor_add_eq_iff (by norm_num), Constants.certifiedCeiling, Int.cast_natCast]
    exact add_left_inj _
  constructor
  · exact fun h => hiff.1 h.1
  · intro h
    have heq := hiff.2 h
    exact ⟨heq, heq.le, fun M hM => Constants.certifiedCeiling_mono (by linarith) (by exact_mod_cast hM)⟩

/-- The constants of a header are the defaults or those of one of its lines. -/
theorem exists_line_of_readHeader {ls : List (List Char)} {c₀ c : Constants} {t n : ℕ}
    (h : readHeader ls c₀ = .ok (c, t, n)) :
    c = c₀ ∨ ∃ line ∈ ls, ∃ whole fraction offset, matchConstants line = some (whole, fraction, offset) ∧
      c.a = stod whole fraction := by
  induction ls generalizing c₀ with
  | nil => cases h
  | cons line rest ih =>
      unfold readHeader at h
      cases hline : matchConstants line with
      | some m =>
          obtain ⟨whole, fraction, offset⟩ := m
          rw [hline] at h
          dsimp only at h
          cases hb : stoi offset with
          | error e => rw [hb] at h; cases h
          | ok b =>
              rw [hb] at h
              rcases ih h with rfl | ⟨line', hmem, hm⟩
              · exact Or.inr ⟨line, List.mem_cons_self .., whole, fraction, offset, hline, rfl⟩
              · exact Or.inr ⟨line', List.mem_cons_of_mem _ hmem, hm⟩
      | none =>
          rw [hline] at h
          dsimp only at h
          cases hheader : matchHeader line with
          | some m =>
              obtain ⟨numberOfForests, numberOfTerminals⟩ := m
              rw [hheader] at h
              dsimp only at h
              cases ht : stoi numberOfForests with
              | error e => rw [ht] at h; cases h
              | ok t =>
                  cases hn : stoi numberOfTerminals with
                  | error e => rw [ht, hn] at h; cases h
                  | ok n =>
                      rw [ht, hn] at h
                      cases h
                      exact Or.inl rfl
          | none =>
              rw [hheader] at h
              rcases ih h with rfl | ⟨line', hmem, hm⟩
              · exact Or.inl rfl
              · exact Or.inr ⟨line', List.mem_cons_of_mem _ hmem, hm⟩

/-- A multiple of a number with at most eight decimals is an integer or at least
`1e-8` away from the next one. -/
theorem fract_stod_mul_lt (whole : List Char) {fraction : List Char} (h : fraction.length ≤ 8) (L : ℕ) :
    Int.fract (stod whole fraction * L) < 1 - 1 / 10 ^ 9 := by
  have hcast : stod whole fraction * L =
      ((Nat.ofDigitChars 10 (whole ++ fraction) 0 * L : ℕ) : ℚ) / (10 ^ fraction.length : ℕ) := by
    rw [stod]
    push_cast
    ring
  have hmod := Nat.mod_lt (Nat.ofDigitChars 10 (whole ++ fraction) 0 * L)
    (pow_pos (by norm_num : 0 < 10) fraction.length)
  have hpos : (0 : ℚ) < (10 ^ fraction.length : ℕ) := by positivity
  have hle : ((10 ^ fraction.length : ℕ) : ℚ) ≤ 10 ^ 8 := by
    exact_mod_cast Nat.pow_le_pow_right (by norm_num) h
  rw [hcast, Int.fract_div_natCast_eq_div_natCast_mod, div_lt_iff₀ hpos]
  have hmod' : ((Nat.ofDigitChars 10 (whole ++ fraction) 0 * L % 10 ^ fraction.length : ℕ) : ℚ) + 1 ≤
      (10 ^ fraction.length : ℕ) := by
    exact_mod_cast hmod
  linarith

/-- **With at most eight decimals the ceiling of every bound is exact.** -/
theorem certifiedCeiling_of_readHeader {ls : List (List Char)} {c : Constants} {t n : ℕ}
    (h : readHeader ls {} = .ok (c, t, n)) (ha : 1 ≤ c.a)
    (hls : ∀ line ∈ ls, ∀ whole fraction offset, matchConstants line = some (whole, fraction, offset) →
      fraction.length ≤ 8) (L : ℕ) : c.certifiedCeiling L = ⌊c.a * L⌋ + c.b := by
  obtain ⟨line, hmem, whole, fraction, offset, hline, hstod⟩ : ∃ line ∈ ls, ∃ whole fraction offset,
      matchConstants line = some (whole, fraction, offset) ∧ c.a = stod whole fraction := by
    refine (exists_line_of_readHeader h).resolve_left ?_
    rintro rfl
    norm_num at ha
  have hfract := fract_stod_mul_lt whole (hls line hmem _ _ _ hline) L
  rw [← hstod, ← floor_add_eq_iff (by norm_num)] at hfract
  rw [Constants.certifiedCeiling, Int.cast_natCast, hfract]

/-- **The ceiling at work**, with a multiplier of two decimals. -/
theorem certifiedCeiling_eq_iff_twoDecimals :
    (Constants.certifiedCeiling ⟨23 / 20, 0⟩ (20 : ℕ) = ⌊(23 / 20 : ℚ) * (20 : ℕ)⌋ + 0 ∧
      Constants.certifiedCeiling ⟨23 / 20, 0⟩ (20 : ℕ) ≤ ⌊(23 / 20 : ℚ) * (20 : ℕ)⌋ + 0 ∧
      ∀ M : ℕ, 20 ≤ M → Constants.certifiedCeiling ⟨23 / 20, 0⟩ (20 : ℕ) ≤ Constants.certifiedCeiling ⟨23 / 20, 0⟩ M) ↔
      Int.fract ((23 / 20 : ℚ) * (20 : ℕ)) < 1 - 1 / 10 ^ 9 :=
  certifiedCeiling_eq_iff (c := ⟨23 / 20, 0⟩) (by norm_num) 20

/-- **A header that is read**: the multiplier `1.9999999999`, whose ceiling of `1` is
`2` although the floor is `1`. -/
theorem readHeader_tenDecimals :
    ∃ c : Constants, readHeader ["#a 1.9999999999 0".toList, "#p 2 3".toList] {} = .ok (c, 2, 3) ∧ 1 ≤ c.a ∧
      ⌊c.a * (1 : ℕ)⌋ + c.b < c.certifiedCeiling (1 : ℕ) := by
  refine ⟨⟨19999999999 / 10 ^ 10, 0⟩, by decide +kernel, by norm_num, by decide +kernel⟩

end Header
end Maf
