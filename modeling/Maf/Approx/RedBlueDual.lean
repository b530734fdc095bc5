/-
# The Red-Blue dual

`RedBlue2` of `src/Solver/Approximation/RedBlueDual.cpp`: a pass over two forests, each
with a working view that is cut and an original view that is not, that deactivates the
leaves one after the other and keeps a running sum.  Compatible sets of labels are
those of `CompatibleSet.lean`.

The counts of the working views are cached behind one flag.  `readCount` reads a
count and throws `Failure.stale` when it is not the count of the current active leaves in
the current forest; an access to something that is not there throws `Failure.undefined`,
and a loop that does not end in time `Failure.fuel`.  The clock and the cancellation
flag (`timedOut`) are left out.  `order` is the order in which the hash set of the active
labels is enumerated, and `checkCompat` says whether `RB_CHECK_COMPAT` is set.
-/

import Maf.Approx.LcaFast
import Maf.ExceptState

namespace Maf
namespace Approx

/-- Why a run is aborted. -/
inductive Failure
  | stale
  | undefined
  | fuel
  deriving DecidableEq, Repr

/-- The two input forests. -/
inductive Side
  | t1
  | t2
  deriving DecidableEq, Repr

/-- The members of `RedBlue2`. -/
structure RedBlue2 where
  t1 : MutableForestView
  t2 : MutableForestView
  t1o : StaticView
  t2o : StaticView
  active : Finset Label
  dualSum : ℤ := 0
  sawStar : Bool := false
  countsDirty : Bool := true

namespace RedBlue2

/-- A procedure of `RedBlue2`. -/
abbrev Run (α : Type) := StateT RedBlue2 (Except Failure) α

/-- The working view of a forest. -/
def view (s : RedBlue2) : Side → MutableForestView
  | .t1 => s.t1
  | .t2 => s.t2

/-- Replaces the working view of a forest. -/
def setView (s : RedBlue2) (v : MutableForestView) : Side → RedBlue2
  | .t1 => { s with t1 := v }
  | .t2 => { s with t2 := v }

/-- The views of two forests before the pass, and all labels active. -/
def init (f1 f2 : Forest) : RedBlue2 where
  t1 := .ofForest f1
  t2 := .ofForest f2
  t1o := buildStaticLca (.ofForest f1)
  t2o := buildStaticLca (.ofForest f2)
  active := f1.labels

/-- An access to something that may not be there. -/
def access {α : Type} : Option α → Run α
  | some a => pure a
  | none => throw .undefined

/-! Counts. -/

/-- `ensureCounts`. -/
def ensureCounts : Run Unit :=
  modify fun s =>
    if s.countsDirty then
      { s with
        t1 := s.t1.refreshCounts s.active
        t2 := s.t2.refreshCounts s.active
        countsDirty := false }
    else s

/-- `deactivate`. -/
def deactivate (u : Label) : Run Unit :=
  modify fun s => { s with active := s.active.erase u, countsDirty := true }

/-- `cutEdge`. -/
def cutEdge (v : Side) (n : Ptr) : Run Unit :=
  modify fun s => { s.setView ((s.view v).cut n) v with countsDirty := true }

/-- `counts[i]`, which should be up to date. -/
def readCount (v : Side) (i : ℕ) : Run ℕ := do
  let s ← get
  if (s.view v).counts i = ((s.view v).refreshCounts s.active).counts i then pure ((s.view v).counts i)
  else throw .stale

/-- `countAt`. -/
def countAt (v : Side) : Option ℕ → Run ℕ
  | none => pure 0
  | some i => readCount v i

/-- `dualSum += d`. -/
def addDual (d : ℤ) : Run Unit := modify fun s => { s with dualSum := s.dualSum + d }

/-- `v.node(u)`. -/
def node (v : Side) (u : Label) : Run Ptr := do
  access (((← get).view v).nodeOf u)

/-- `countUnder`. -/
def countUnder (v : Side) (n : Ptr) : Run ℕ := do
  ensureCounts
  let i ← access (((← get).view v).indexAt n)
  readCount v i

/-- `hasActiveUnder`. -/
def hasActiveUnder (v : Side) (n : Ptr) : Run Bool := do
  return decide (0 < (← countUnder v n))

/-! Predicates on the working forests. -/

/-- The loop of `activeLabelsUnder`. -/
def activeLabelsLoop (v : MutableForestView) (active : Finset Label) : ℕ → List Ptr → List Label → Option (List Label)
  | _, [], out => some out
  | 0, _ :: _, _ => none
  | fuel + 1, x :: stack, out => do
      let lbl := v.labelOf (← v.indexAt x)
      if lbl ≠ 0 then activeLabelsLoop v active fuel stack (if lbl ∈ active then out ++ [lbl] else out)
      else activeLabelsLoop v active fuel ((v.rightChild x).toList ++ (v.leftChild x).toList ++ stack) out

/-- `activeLabelsUnder`. -/
def activeLabelsUnder (v : Side) (n : Ptr) : Run (List Label) := do
  let s ← get
  access (activeLabelsLoop (s.view v) s.active (s.view v).nodes.length [n] [])

/-- `v.rootOf(v.node(u))`. -/
def rootOfLeaf (v : Side) (u : Label) : Run Ptr := do
  let n ← node v u
  return ((← get).view v).rootOf n

/-- `sameTree`. -/
def sameTree (v : Side) (a b : Label) : Run Bool := do
  return decide ((← rootOfLeaf v a) = (← rootOfLeaf v b))

/-- `aloneInTree`. -/
def aloneInTree (v : Side) (u : Label) : Run Bool := do
  return decide ((← countUnder v (← rootOfLeaf v u)) = 1)

/-- `lca(v.node(a), v.node(b))`. -/
def lcaLeaves (v : Side) (a b : Label) : Run (Option Ptr) := do
  let na ← node v a
  let nb ← node v b
  return ((← get).view v).lca na nb

/-- `activeSiblings`. -/
def activeSiblings (v : Side) (a b : Label) : Run Bool := do
  if ← sameTree v a b then
    match ← lcaLeaves v a b with
    | none => pure false
    | some m => return decide ((← countUnder v m) = 2)
  else pure false

/-- The first of the nodes `sibs` other than `child` with an active leaf below. -/
def activeSibling (v : Side) (child : Ptr) : List (Option Ptr) → Run (Option Ptr)
  | [] => pure none
  | none :: sibs => activeSibling v child sibs
  | some sib :: sibs => do
      if sib = child then activeSibling v child sibs
      else if ← hasActiveUnder v sib then pure (some sib)
      else activeSibling v child sibs

/-- The first child of `parent` other than `child` with an active leaf below. -/
def activeSiblingBelow (v : Side) (child parent : Ptr) : Run (Option Ptr) := do
  let s ← get
  activeSibling v child [(s.view v).leftChild parent, (s.view v).rightChild parent]

/-- The loop of `cutOffLeaf`. -/
def cutOffLoop (v : Side) : ℕ → Ptr → Run Unit
  | 0, _ => throw .fuel
  | fuel + 1, child => do
      match ((← get).view v).parent child with
      | none => pure ()
      | some parent =>
          match ← activeSiblingBelow v child parent with
          | some _ => cutEdge v child
          | none => cutOffLoop v fuel parent

/-- The number of rounds of a walk up. -/
def height (v : Side) : Run ℕ := do
  return ((← get).view v).nodes.length

/-- `cutOffLeaf`. -/
def cutOffLeaf (v : Side) (u : Label) : Run Unit := do
  cutOffLoop v (← height v) (← node v u)

/-- The loop of `cutPendant`. -/
def cutPendantLoop (v : Side) : ℕ → Ptr → Run Unit
  | 0, _ => throw .fuel
  | fuel + 1, child => do
      match ((← get).view v).parent child with
      | none => pure ()
      | some parent =>
          match ← activeSiblingBelow v child parent with
          | some sib => cutEdge v sib
          | none => cutPendantLoop v fuel parent

/-- `cutPendant`. -/
def cutPendant (v : Side) (u : Label) : Run Unit := do
  cutPendantLoop v (← height v) (← node v u)

/-- The loop of `pBelowLca`. -/
def pBelowLoop (v : Side) (m : Option Ptr) : ℕ → Ptr → Run Bool
  | 0, _ => throw .fuel
  | fuel + 1, child => do
      match ((← get).view v).parent child with
      | none => pure false
      | some parent =>
          if some parent = m then pure false
          else
            match ← activeSiblingBelow v child parent with
            | some _ => pure true
            | none => pBelowLoop v m fuel parent

/-- `pBelowLca`. -/
def pBelowLca (v : Side) (u vv : Label) : Run Bool := do
  let m ← lcaLeaves v u vv
  pBelowLoop v m (← height v) (← node v u)

/-- `origLca2InTreeOf`. -/
def origLca2InTreeOf (u v : Label) : Run Bool := do
  let s ← get
  let nu ← access (s.t2o.view.nodeOf u)
  let nv ← access (s.t2o.view.nodeOf v)
  match s.t2o.view.lca nu nv with
  | none => pure false
  | some lo => do
      let i ← access (s.t2o.view.indexAt lo)
      let loWork ← access s.t2.nodes[i]?
      return decide (s.t2.rootOf loWork = (← rootOfLeaf .t2 u))

/-- `uTreeHasActiveOutsideU`. -/
def uTreeHasActiveOutsideU (u : Label) (U : List Label) : Run Bool := do
  let under ← activeLabelsUnder .t2 (← rootOfLeaf .t2 u)
  return under.any fun w => decide (w ≠ u ∧ w ∉ U)

/-- `restrictsO(t2o, u, vv, w)`. -/
def restrictsO (u vv w : Label) : Run Bool := do
  return decide ((← access ((← get).t2o.outlier u vv w)) = w)

/-- `activeIn`. -/
def activeIn (s : List Label) : Run (List Label) := do
  let active := (← get).active
  return s.filter (· ∈ active)

/-! Scans of the counts. -/

/-- The child of a node in an array, if it still has an active leaf below. -/
def activeChild (v : Side) : Option ℕ → Run (List ℕ)
  | none => pure []
  | some c => do
      if 0 < (← readCount v c) then pure [c] else pure []

/-- The loop of `twoActiveUnder`. -/
def twoActiveLoop (v : Side) : ℕ → List ℕ → List Label → Run (List Label)
  | _, [], found => pure found
  | fuel, i :: stack, found =>
      if found.length < 2 then
        match fuel with
        | 0 => throw .fuel
        | fuel + 1 => do
            let view := (← get).view v
            if view.labelOf i ≠ 0 then twoActiveLoop v fuel stack (found ++ [view.labelOf i])
            else
              let left ← activeChild v (view.leftIdx i)
              let right ← activeChild v (view.rightIdx i)
              twoActiveLoop v fuel (right ++ left ++ stack) found
      else pure found

/-- `twoActiveUnder`. -/
def twoActiveUnder (v : Side) (start : ℕ) : Run (Label × Label) := do
  let found ← twoActiveLoop v (← height v) [start] []
  return (found.getD 0 0, found.getD 1 0)

/-- `oneActiveUnder`. -/
def oneActiveUnder (v : Side) : ℕ → ℕ → Run Label
  | 0, _ => throw .fuel
  | fuel + 1, i => do
      let view := (← get).view v
      if view.labelOf i = 0 then
        match ← activeChild v (view.leftIdx i) with
        | c :: _ => oneActiveUnder v fuel c
        | [] => oneActiveUnder v fuel (← access (view.rightIdx i))
      else pure (view.labelOf i)

/-- A node of the first tree is a lowest one with exactly two active leaves below. -/
def isCherry (i : ℕ) : Run Bool := do
  let view := (← get).view .t1
  if view.labelOf i ≠ 0 then pure false
  else if (← readCount .t1 i) ≠ 2 then pure false
  else if 2 ≤ (← countAt .t1 (view.leftIdx i)) then pure false
  else if 2 ≤ (← countAt .t1 (view.rightIdx i)) then pure false
  else pure true

/-- The scan for a cherry of the first tree whose leaves pass a test; `(0, 0)` if there
is none. -/
def scanCherries (test : Label → Label → Run Bool) : List ℕ → Run (Label × Label)
  | [] => pure (0, 0)
  | i :: is => do
      if ← isCherry i then
        let (u, v) ← twoActiveUnder .t1 i
        if ← test u v then pure (u, v) else scanCherries test is
      else scanCherries test is

/-- `findBothForestCherry`. -/
def findBothForestCherry : Run (Label × Label) := do
  ensureCounts
  scanCherries (activeSiblings .t2) (List.range (← height .t1))

/-- The scan of `findT2Alone`. -/
def scanAlone : List ℕ → Run Label
  | [] => pure 0
  | i :: is => do
      let view := (← get).view .t2
      if view.parentIdx i = none then
        if (← readCount .t2 i) = 1 then oneActiveUnder .t2 (← height .t2) i else scanAlone is
      else scanAlone is

/-- `findT2Alone`; `0` if there is none. -/
def findT2Alone : Run Label := do
  if (← get).active.card ≤ 1 then pure 0
  else
    ensureCounts
    scanAlone (List.range (← height .t2))

/-- `activeSiblingPairIn`. -/
def activeSiblingPairIn (s : List Label) : Run (Label × Label) := do
  ensureCounts
  scanCherries (fun u v => pure (decide (u ∈ s ∧ v ∈ s))) (List.range (← height .t1))

/-! Procedures 1 and 2. -/

/-- Cuts `u` off in the first tree, deactivates it and credits it. -/
def settle (u : Label) : Run Unit := do
  cutOffLeaf .t1 u
  deactivate u
  addDual 1

/-- **`resolvePair`.** -/
def resolvePair (u vv : Label) (U : List Label) : Run Unit := do
  if ← sameTree .t2 u vv then
    if ← activeSiblings .t2 u vv then deactivate u
    else
      let below ← pBelowLca .t2 u vv
      let (u, vv) := if below then (u, vv) else (vv, u)
      cutPendant .t2 u
      addDual (-1)
      if ← activeSiblings .t2 u vv then
        deactivate u
        addDual 1
        modify fun s => { s with sawStar := true }
      else
        cutOffLeaf .t1 u
        cutOffLeaf .t2 u
        deactivate u
        addDual 1
  else
    let swap ← origLca2InTreeOf u vv
    let u := if swap then vv else u
    if ← uTreeHasActiveOutsideU u U then
      cutOffLeaf .t2 u
      settle u
      modify fun s => { s with sawStar := true }
    else settle u

/-- Resolves pairs of siblings in `U` as long as at least `least` labels of it are active. -/
def resolvePairs (least : ℕ) (U : List Label) : ℕ → Run Unit
  | 0 => throw .fuel
  | fuel + 1 => do
      if least ≤ (← activeIn U).length then
        let (a, b) ← activeSiblingPairIn U
        if a = 0 then pure ()
        else
          resolvePair a b U
          resolvePairs least U fuel
      else pure ()

/-- Settles a leaf, after cutting it off in the second tree unless it is alone there. -/
def finalize (u : Label) : Run Unit := do
  if !(← aloneInTree .t2 u) then cutOffLeaf .t2 u
  settle u

/-- Settles the first of the labels. -/
def finalizeFirst : List Label → Run Unit
  | [] => pure ()
  | u :: _ => finalize u

/-- Whether an active leaf of the second tree of `uh` lies outside of `uh` and `vh`. -/
def hasOutlier (uh vh : Label) : List Label → Run Bool
  | [] => pure false
  | w :: ws => do
      if w = uh ∨ w = vh then hasOutlier uh vh ws
      else if ← restrictsO uh vh w then pure true
      else hasOutlier uh vh ws

/-- The last part of `resolveSet`, for the two labels that are left. -/
def resolveLast (R : List Label) (uh vh : Label) : Run Bool := do
  if ← activeSiblings .t2 uh vh then
    deactivate uh
    addDual 1
    pure true
  else
    let same ← sameTree .t2 uh vh
    let hasW ←
      if same then
        let under ← activeLabelsUnder .t2 (← rootOfLeaf .t2 uh)
        hasOutlier uh vh under
      else pure false
    if !same || !hasW then
      finalize uh
      finalize vh
      pure true
    else if (← get).sawStar then
      resolvePair uh vh R
      finalizeFirst (← activeIn R)
      pure true
    else pure false

/-- **`resolveSet`**: whether it succeeds. -/
def resolveSet (R : List Label) : Run Bool := do
  modify fun s => { s with sawStar := false }
  addDual (-1)
  resolvePairs 3 R (R.length + 1)
  match ← activeIn R with
  | uh :: vh :: _ => resolveLast R uh vh
  | _ => pure true

/-! Minimal incompatible sets. -/

section Pass

variable (checkCompat : Bool) (order : Finset Label → List Label)

/-- `compatibleSet` of the two original trees. -/
def compatible (s : List Label) : Run Bool := do
  let st ← get
  access (compatibleSet st.t1o st.t2o checkCompat s)

/-- The loop of `lcaSet`. -/
def lcaSetLoop (v : Side) : List Label → Option Ptr → Run (Option Ptr)
  | [], cur => pure cur
  | _ :: _, none => pure none
  | x :: xs, some cur => do
      let n ← node v x
      lcaSetLoop v xs (((← get).view v).lca cur n)

/-- `lcaSet`. -/
def lcaSet (v : Side) : List Label → Run (Option Ptr)
  | [] => pure none
  | x :: xs => do
      lcaSetLoop v xs (some (← node v x))

/-- The active labels below the children of a node, if there are any. -/
def childSets : List (Option Ptr) → Run (List (List Label))
  | [] => pure []
  | none :: chs => childSets chs
  | some ch :: chs => do
      let s ← activeLabelsUnder .t1 ch
      let rest ← childSets chs
      pure (if s = [] then rest else s :: rest)

/-- `orient`. -/
def orient (A C : List Label) : Run (List Label × List Label) := do
  let mu ← lcaSet .t2 (A ++ C)
  let aBig := decide (2 ≤ A.length)
  let cBig := decide (2 ≤ C.length)
  if mu ≠ none ∧ aBig ∧ (← lcaSet .t2 A) = mu then pure (A, C)
  else if mu ≠ none ∧ cBig ∧ (← lcaSet .t2 C) = mu then pure (C, A)
  else if aBig then pure (A, C)
  else if cBig then pure (C, A)
  else if C.length ≤ A.length then pure (A, C)
  else pure (C, A)

/-- The loop of `findMinIncompat`. -/
def descend : ℕ → Option Ptr → Run (Option (List Label × List Label))
  | _, none => pure none
  | 0, some _ => throw .fuel
  | fuel + 1, some node => do
      let view := (← get).view .t1
      match ← childSets [view.leftChild node, view.rightChild node] with
      | [] => pure none
      | [s] => do
          let nxt ← lcaSet .t1 s
          if nxt = some node then pure none else descend fuel nxt
      | A :: C :: _ => do
          let okA ← compatible checkCompat A
          let ok ← if okA then compatible checkCompat C else pure false
          if ok then some <$> orient A C
          else descend fuel (← lcaSet .t1 (if okA then C else A))

/-- **`findMinIncompat`.** -/
def findMinIncompat : Run (Option (List Label × List Label)) := do
  let act := order (← get).active
  if act.length < 2 then pure none
  else descend checkCompat (← height .t1) (← lcaSet .t1 act)

/-! The final procedures. -/

/-- `proc4a`. -/
def proc4a (r1 r2 b : Label) : Run Unit := do
  let close ← restrictsO b r1 r2
  let (r1, r2) := if close then (r1, r2) else (r2, r1)
  match ← lcaLeaves .t2 r1 b with
  | none => pure ()
  | some m => if ((← get).view .t2).parent m ≠ none then cutEdge .t2 m
  addDual (-1)
  cutOffLeaf .t2 r2
  settle r2
  if ← activeSiblings .t2 r1 b then
    deactivate b
    addDual 1
  else
    cutOffLeaf .t2 r1
    settle r1
    cutOffLeaf .t2 b
    settle b

/-- `proc4b`. -/
def proc4b (r1 r2 b : Label) : Run Unit := do
  cutOffLeaf .t2 b
  settle b
  finalize r1
  finalize r2

/-- The first of the labels that passes a test, or `0`. -/
def firstLabel (test : Label → Run Bool) : List Label → Run Label
  | [] => pure 0
  | x :: xs => do
      if ← test x then pure x else firstLabel test xs

/-- The two of three labels other than `x`. -/
def others (trip : List Label) (x : Label) : Label × Label :=
  let rest := trip.filter (· ≠ x)
  (rest.getD 0 0, rest.getD 1 0)

/-- A label in no tree with one of the other two. -/
def apart (trip : List Label) (x : Label) : Run Bool := do
  let o := others trip x
  if ← sameTree .t2 x o.1 then pure false
  else return !(← sameTree .t2 x o.2)

/-- `proc4c`. -/
def proc4c (r1 r2 b : Label) : Run Unit := do
  let trip := [r1, r2, b]
  let uHat ← firstLabel (apart trip) trip
  let uHat ← if uHat = 0 then firstLabel (aloneInTree .t2) trip else pure uHat
  let uHat := if uHat = 0 then b else uHat
  let v := others trip uHat
  finalize uHat
  if ← activeSiblings .t2 v.1 v.2 then
    deactivate (if v.2 = b then v.2 else v.1)
    addDual 1
  else
    resolvePair v.1 v.2 [v.1, v.2]
    finalizeFirst (← activeIn [v.1, v.2])

/-- The loop that settles what is left when it is neither of the expected cases. -/
def finalizeRest : List Label → Run Unit
  | [] => pure ()
  | x :: xs => do
      if x ∈ (← get).active then finalize x
      finalizeRest xs

/-! Preprocessing and the main loop. -/

/-- **`preprocess`.** -/
def preprocess : ℕ → Run Unit
  | 0 => throw .fuel
  | fuel + 1 => do
      let (u, _) ← findBothForestCherry
      if u ≠ 0 then
        deactivate u
        preprocess fuel
      else
        let w ← findT2Alone
        if w ≠ 0 then
          settle w
          preprocess fuel
        else pure ()

/-- What an iteration of the main loop does: it ends the pass, or it resolves a set. -/
inductive Outcome
  | last
  | compatible
  | success
  | triplet
  | degenerate
  deriving DecidableEq, Repr

/-- The pass ends. -/
def Outcome.isFinal : Outcome → Bool
  | last => true
  | compatible => true
  | _ => false

/-- The part of an iteration after `resolveSet` has failed. -/
def resolveTriplet (R B : List Label) : Run Outcome := do
  resolvePairs 2 B (B.length + 1)
  match ← activeIn R, ← activeIn B with
  | [r1, r2], [b] => do
      let root1 ← rootOfLeaf .t2 r1
      let root2 ← rootOfLeaf .t2 r2
      let rootb ← rootOfLeaf .t2 b
      let roots := ({root1, root2, rootb} : Finset Ptr)
      if roots.card = 1 then proc4a r1 r2 b
      else if roots.card = 3 then proc4b r1 r2 b
      else proc4c r1 r2 b
      pure .triplet
  | _, _ => do
      finalizeRest (R ++ B)
      pure .degenerate

/-- The number of rounds of `preprocess`. -/
def rounds : Run ℕ := do
  return (← get).active.card + 1

/-- An iteration of the main loop. -/
def iteration : Run Outcome := do
  if (← get).active.card = 1 then
    modify fun s => { s with active := ∅ }
    pure .last
  else
    match ← findMinIncompat checkCompat order with
    | none => do
        modify fun s => { s with active := ∅ }
        pure .compatible
    | some (R, B) => do
        let outcome ← if ← resolveSet R then pure .success else resolveTriplet R B
        preprocess (← rounds)
        pure outcome

/-- The main loop, with the number of iterations that the guard leaves. -/
def mainLoop : ℕ → Run (List Outcome)
  | 0 => pure []
  | guard + 1 => do
      if (← get).active = ∅ then pure []
      else
        let outcome ← iteration checkCompat order
        if outcome.isFinal then pure [outcome] else return outcome :: (← mainLoop guard)

/-- **`run`**: the bound, and what the iterations did. -/
def run : Run (ℤ × List Outcome) := do
  preprocess (← rounds)
  let outcomes ← mainLoop checkCompat order 2000000
  return (max (← get).dualSum 1, outcomes)

end Pass

end RedBlue2
end Approx
end Maf
