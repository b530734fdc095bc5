/-
# The order of `Roots`

The actions replace a root and insert another one with `std::lower_bound`, which
looks at the roots from the first one on and stops at the first whose smallest
terminal is not smaller.  On the roots of stored trees this is
`Forest.insertRoot` (`insertIdx_lowerBound`), and writing the old root back and
erasing the inserted one restores the vector (`eraseIdx_set_insertIdx`).
-/

import Maf.Action.DeleteEdgeAction
import Maf.Graph.Stored

namespace Maf

open Bitset (encode Within)

namespace Graph

/-- `std::lower_bound` in the part of `Roots` that starts at `first`. -/
def lowerBound (h : Nodes) (roots : List Ptr) (first : ℕ) (v : Ptr) : ℕ :=
  first + ((roots.drop first).takeWhile fun a => h.hasSmallestTerminal a v).length

/-- The comparison of two nodes depends on their words only. -/
theorem hasSmallestTerminal_congr {h h' : Nodes} (hw : ∀ x, (h x).subtreeTerminals = (h' x).subtreeTerminals)
    (a b : Ptr) : h.hasSmallestTerminal a b = h'.hasSmallestTerminal a b := by
  rw [Nodes.hasSmallestTerminal, Nodes.hasSmallestTerminal, hw a, hw b]

/-- Inserting behind a first part leaves the part alone. -/
theorem insertIdx_append {α : Type*} (xs ys : List α) (k : ℕ) (a : α) :
    (xs ++ ys).insertIdx (xs.length + k) a = xs ++ ys.insertIdx k a := by
  induction xs with
  | nil => simp
  | cons x xs ih => rw [List.length_cons, show xs.length + 1 + k = xs.length + k + 1 by omega, List.cons_append,
      List.insertIdx_succ_cons, ih, List.cons_append]

/-- A write before the place of an insertion may be made first. -/
theorem set_insertIdx {α : Type*} (xs : List α) {i j : ℕ} (h : i < j) (a b : α) :
    (xs.insertIdx j a).set i b = (xs.set i b).insertIdx j a := by
  induction xs generalizing i j with
  | nil =>
      obtain ⟨j, rfl⟩ : ∃ k, j = k + 1 := ⟨j - 1, by omega⟩
      simp
  | cons x xs ih =>
      obtain ⟨j, rfl⟩ : ∃ k, j = k + 1 := ⟨j - 1, by omega⟩
      cases i with
      | zero => simp
      | succ i => simp [ih (show i < j by omega)]

/-- Writing a root back and erasing the one that was inserted after it. -/
theorem eraseIdx_set_insertIdx {α : Type*} (xs : List α) {i j : ℕ} (h : i < j) (a b : α) :
    ((xs.insertIdx j a).set i b).eraseIdx j = xs.set i b := by
  rw [set_insertIdx xs h, List.eraseIdx_insertIdx_self]

/-- **`std::lower_bound` finds the place of a root.** -/
theorem insertIdx_lowerBound {h : Nodes} (pre : List Ptr) {G : Forest} {v : Tree}
    (hiff : ∀ u ∈ G, h.hasSmallestTerminal u.ptr v.ptr = true ↔ u.least < v.least) :
    (pre ++ G.map Tree.ptr).insertIdx (lowerBound h (pre ++ G.map Tree.ptr) pre.length v.ptr) v.ptr =
      pre ++ (Forest.insertRoot v G).map Tree.ptr := by
  rw [lowerBound, List.drop_left, insertIdx_append]
  congr 1
  induction G with
  | nil => rfl
  | cons u G ih =>
      have hu := hiff u (List.mem_cons_self ..)
      rw [List.map_cons, List.takeWhile_cons, Forest.insertRoot]
      by_cases hlt : u.least < v.least
      · rw [if_pos (hu.2 hlt), if_pos hlt, List.length_cons, List.insertIdx_succ_cons, List.map_cons,
          ih fun w hw => hiff w (List.mem_cons_of_mem _ hw)]
      · rw [if_neg fun h => hlt (hu.1 h), if_neg hlt]
        rfl

/-- A root that is smaller than the inserted one stands before it. -/
theorem lt_lowerBound {h : Nodes} {roots : List Ptr} {i : ℕ} {v : Ptr} (hi : i < roots.length)
    (hlt : h.hasSmallestTerminal roots[i] v = true) : i < lowerBound h roots i v := by
  rw [lowerBound, List.drop_eq_getElem_cons hi, List.takeWhile_cons, if_pos hlt, List.length_cons]
  omega

end Graph

namespace Forest

/-- Cutting an edge leaves the trees before it alone. -/
theorem deleteEdge_append {A G : Forest} {c : Tree} (hA : ∀ t ∈ A, t.detach c = none) :
    deleteEdge c (A ++ G) = (deleteEdge c G).map (A ++ ·) := by
  induction A with
  | nil => simp
  | cons t A ih =>
      rw [List.cons_append, deleteEdge, hA t (List.mem_cons_self ..),
        ih fun u hu => hA u (List.mem_cons_of_mem _ hu)]
      simp [Function.comp_def]

end Forest
end Maf
