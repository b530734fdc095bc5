/-
# Choosing a rule for a sibling pair

`src/Solver/Rule/SiblingRuleFactory.cpp`.  `allRules` takes the first sibling
pair `a`, `c` of forest 0 in the heuristic order of the labels, looks at the two
in every other forest, and returns the rule that the positions allow: the pair
is collapsed when it is a sibling pair everywhere, subtrees are cut off when few
of them lie between the two, and otherwise the search branches.

Nodes are subtrees of the current forest; a pointer comparison is the equality
of the two subtrees.
-/

import Maf.Forest
import Maf.Surgery

namespace Maf

/-- The rules of the two rule lists, with the arguments of their constructors.
The nodes that `abc` keeps are kept by their addresses, with the number of their
forest. -/
inductive Rule where
  | cutBranch
  | checkSingleVertexTrees
  | singleVertexTreePropagation (labelsToBeReduced : List Label)
  | equalPairReduction (aLabel cLabel : Label)
  | bRule (b1Label b2Label : Label)
  | reverseB (toCutLabel : Label)
  | twoB (toCutLabel1 toCutLabel2 : Label)
  | acBranching (aLabel cLabel : Label)
  | abcBranching (aLabel cLabel : Label) (forestWithBNodes : List (ℕ × List Ptr))
  | forcedCherryCut (aLabel cLabel : Label)
  | greedyCherryCut (aLabel cLabel : Label)
  | debugAssertFalse
  deriving DecidableEq

namespace Forest

/-- `node->parent->sibling`. -/
def uncle (F : Forest) (n : Tree) : Option Tree := (F.parent n).bind F.sibling

/-- The label of the uncle, if it is a terminal. -/
def uncleLabel (F : Forest) (n : Tree) : Option Label := (F.uncle n).bind Tree.terminalToLabel

/-- `c->hasSubsetTerminals(rootOf(a))`. -/
def connected (F : Forest) (a c : Tree) : Bool :=
  match F.rootOf a with
  | none => false
  | some root => decide (c.subtreeTerminals ⊆ root.subtreeTerminals)

end Forest

namespace SiblingRuleFactory

/-- The order of the labels from `BranchingSolver::initializeContext`: the terminals
of forest 0 from left to right. -/
def heuristicLabelOrder (f0 : Forest) : List Label := f0.subtrees.filterMap Tree.terminalToLabel

/-- `getSiblings`; `none` for the pair `{0, 0}`. -/
def getSiblings (order : List Label) (f : Forest) : Option (Label × Label) :=
  order.findSome? fun label =>
    match f.labelToTerminal label with
    | none => none
    | some node =>
        match f.sibling node with
        | none => none
        | some s =>
            match node.terminalToLabel, s.terminalToLabel with
            | some aLabel, some cLabel => some (aLabel, cLabel)
            | _, _ => none

/-- `checkBNodes`: the one or two subtrees between `a` and `c`, from the lower one
up. -/
def checkBNodes (f : Forest) (a c : Tree) : Option (Tree × Option Tree) :=
  if f.uncle a = some c then (f.sibling a).map (·, none)
  else if f.uncle c = some a then (f.sibling c).map (·, none)
  else if (f.parent a).bind f.uncle = some c then
    (f.sibling a).bind fun b₁ => (f.uncle a).map fun b₂ => (b₁, some b₂)
  else if (f.parent c).bind f.uncle = some a then
    (f.sibling c).bind fun b₁ => (f.uncle c).map fun b₂ => (b₁, some b₂)
  else none

/-- The siblings passed on the way from `it` up to the first node whose parent
satisfies `top`. -/
def collectBNodes (f : Forest) (top : Tree → Bool) : ℕ → Tree → List Tree
  | 0, _ => []
  | fuel + 1, it =>
      match f.parent it with
      | none => []
      | some p => if top p then [] else (f.sibling it).toList ++ collectBNodes f top fuel p

/-- The lowest node above `it` that satisfies `top`. -/
def climb (f : Forest) (top : Tree → Bool) : ℕ → Tree → Option Tree
  | 0, _ => none
  | fuel + 1, it =>
      match f.parent it with
      | none => none
      | some p => if top p then some p else climb f top fuel p

/-- The subtrees between `a` and `c`, first those beside the way up from `a`. -/
def bNodesBetween (f : Forest) (a c : Tree) : List Tree :=
  let above := fun p : Tree => decide (c.subtreeTerminals ⊆ p.subtreeTerminals)
  let fuel := f.subtrees.length
  let lca := climb f above fuel a
  collectBNodes f above fuel a ++ collectBNodes f (fun p => some p = lca) fuel c

/-- The local variables of `allRules`. -/
structure Flags where
  b1Label : Label := 0
  b2Label : Label := 0
  equalPairRule : Bool := true
  twoBRule : Bool
  reverseBRule : Bool
  reverseBLabel : Label := 0
  bRule : Bool := true
  forestWithBNodes : List (ℕ × List Ptr) := []

/-- Matches a label with `b1Label` and `b2Label`, filling the first of them that is
still open; `none` when both are taken. -/
def Flags.assign (s : Flags) (possible : Label) : Option Flags :=
  if possible = s.b1Label ∨ possible = s.b2Label then some s
  else if s.b1Label = 0 then some { s with b1Label := possible }
  else if s.b2Label = 0 then some { s with b2Label := possible }
  else none

/-- The check of the reverse B rule in a forest where `a` and `c1` are no siblings. -/
def checkReverseB (f : Forest) (aNode c1Node c2Node : Tree) (aLabel c1Label : Label) (s : Flags) :
    Flags :=
  let sib := f.sibling c2Node
  if sib = some aNode then
    if s.reverseBLabel = 0 then { s with reverseBLabel := c1Label }
    else if s.reverseBLabel ≠ c1Label then { s with reverseBRule := false }
    else s
  else if sib = some c1Node then
    if s.reverseBLabel = 0 then { s with reverseBLabel := aLabel }
    else if s.reverseBLabel ≠ aLabel then { s with reverseBRule := false }
    else s
  else { s with reverseBRule := false }

/-- One subtree lies between the pair. -/
def oneBNode (i : ℕ) (b1Node : Tree) (s : Flags) : Flags :=
  let s := { s with forestWithBNodes := s.forestWithBNodes ++ [(i, [b1Node.ptr])] }
  if !s.twoBRule && !s.bRule then s
  else
    match b1Node.terminalToLabel with
    | none => { s with bRule := false, twoBRule := false }
    | some possible =>
        match s.assign possible with
        | some s' => s'
        | none => { s with bRule := false, twoBRule := false }

/-- Two subtrees lie between the pair. -/
def twoBNodes (i : ℕ) (b1Node b2Node : Tree) (s : Flags) : Flags :=
  let s := { s with
    forestWithBNodes := s.forestWithBNodes ++ [(i, [b1Node.ptr, b2Node.ptr])], bRule := false }
  if !s.twoBRule then s
  else
    match b1Node.terminalToLabel, b2Node.terminalToLabel with
    | some possible1, some possible2 =>
        match s.assign possible1 with
        | none => { s with twoBRule := false }
        | some s' =>
            match s'.assign possible2 with
            | none => { s' with twoBRule := false }
            | some s'' => s''
    | _, _ => { s with twoBRule := false }

/-- More subtrees lie between the pair. -/
def manyBNodes (i : ℕ) (f : Forest) (aNode c1Node : Tree) (s : Flags) : Flags :=
  { s with
    bRule := false
    twoBRule := false
    forestWithBNodes :=
      s.forestWithBNodes ++ [(i, (bNodesBetween f aNode c1Node).map Tree.ptr)] }

/-- The checks of the reverse B rule and of the uncle for the 2B rule; `none` is the
exception for a label without a terminal. -/
def checkUncle (aLabel c1Label c2Label : Label) (f : Forest) (aNode c1Node : Tree) (s : Flags) :
    Option Flags :=
  if !s.reverseBRule && !s.twoBRule then some s
  else
    (f.labelToTerminal c2Label).map fun c2Node =>
      let s := if s.reverseBRule then checkReverseB f aNode c1Node c2Node aLabel c1Label s else s
      if s.twoBRule && decide (f.uncle aNode ≠ some c2Node ∧ f.uncle c1Node ≠ some c2Node) then
        { s with twoBRule := false }
      else s

/-- The body of the loop for forest `i`.  The outer `none` is an exception, the
inner one the return of the AC branching rule. -/
def checkForest (aLabel c1Label c2Label : Label) (i : ℕ) (f : Forest) (aNode c1Node : Tree)
    (s : Flags) : Option (Option Flags) :=
  if f.sibling aNode = some c1Node then
    if (s.twoBRule || s.reverseBRule) && decide (f.uncleLabel aNode ≠ some c2Label) then
      some (some { s with twoBRule := false, reverseBRule := false })
    else some (some s)
  else if !f.connected aNode c1Node then some none
  else
    (checkUncle aLabel c1Label c2Label f aNode c1Node { s with equalPairRule := false }).map fun s =>
      match checkBNodes f aNode c1Node with
      | none => some (manyBNodes i f aNode c1Node s)
      | some (b1Node, none) => some (oneBNode i b1Node s)
      | some (b1Node, some b2Node) => some (twoBNodes i b1Node b2Node s)

/-- The loop over the other forests, from number `i` on. -/
def checkForests (aLabel c1Label c2Label : Label) : ℕ → List Forest → Flags → Option (Option Flags)
  | _, [], s => some (some s)
  | i, f :: fs, s =>
      match f.labelToTerminal aLabel, f.labelToTerminal c1Label with
      | some aNode, some c1Node =>
          match checkForest aLabel c1Label c2Label i f aNode c1Node s with
          | none => none
          | some none => some none
          | some (some s') => checkForests aLabel c1Label c2Label (i + 1) fs s'
      | _, _ => none

/-- What is returned after the loop. -/
def decideRule (aLabel c1Label c2Label : Label) (s : Flags) : Rule :=
  if s.equalPairRule then .equalPairReduction aLabel c1Label
  else if s.bRule then .bRule s.b1Label s.b2Label
  else if s.reverseBRule then .reverseB s.reverseBLabel
  else if s.twoBRule && decide (s.b1Label ≠ c2Label ∧ s.b2Label ≠ c2Label) then
    .twoB s.b1Label s.b2Label
  else .abcBranching aLabel c1Label s.forestWithBNodes

/-- The label of the uncle of the pair in forest 0, or `0`. -/
def uncleOf (f0 : Forest) (aLabel : Label) : Label :=
  ((f0.labelToTerminal aLabel).bind f0.uncleLabel).getD 0

/-- **`allRules`**, with the order of the labels as a parameter.  The outer `none`
stands for an exception, the inner one for `nullptr`. -/
def allRules (order : List Label) : List Forest → Option (Option Rule)
  | [] => none
  | f0 :: fs =>
      match getSiblings order f0 with
      | none => some none
      | some (aLabel, c1Label) =>
          let c2Label := uncleOf f0 aLabel
          match checkForests aLabel c1Label c2Label 1 fs
            { twoBRule := decide (c2Label ≠ 0), reverseBRule := decide (c2Label ≠ 0) } with
          | none => none
          | some none => some (some (.acBranching aLabel c1Label))
          | some (some s) => some (some (decideRule aLabel c1Label c2Label s))

/-- The loop of `basicRules` over the other forests, from number `i` on, with the
local variables `siblings` and `forestWithBNodes`.  The outer `none` is an
exception, the inner one the return of the AC branching rule. -/
def collectForests (aLabel cLabel : Label) :
    ℕ → List Forest → Bool → List (ℕ × List Ptr) → Option (Option (Bool × List (ℕ × List Ptr)))
  | _, [], siblings, forestWithBNodes => some (some (siblings, forestWithBNodes))
  | i, f :: fs, siblings, forestWithBNodes =>
      match f.labelToTerminal aLabel, f.labelToTerminal cLabel with
      | some aNode, some cNode =>
          if f.sibling aNode = some cNode then collectForests aLabel cLabel (i + 1) fs siblings forestWithBNodes
          else if !f.connected aNode cNode then some none
          else
            collectForests aLabel cLabel (i + 1) fs false
              (forestWithBNodes ++ [(i, (bNodesBetween f aNode cNode).map Tree.ptr)])
      | _, _ => none

/-- **`basicRules`**, with the order of the labels as a parameter. -/
def basicRules (order : List Label) : List Forest → Option (Option Rule)
  | [] => none
  | f0 :: fs =>
      match getSiblings order f0 with
      | none => some none
      | some (aLabel, cLabel) =>
          match collectForests aLabel cLabel 1 fs true [] with
          | none => none
          | some none => some (some (.acBranching aLabel cLabel))
          | some (some (siblings, forestWithBNodes)) =>
              some (some (if siblings then .equalPairReduction aLabel cLabel
                else .abcBranching aLabel cLabel forestWithBNodes))

end SiblingRuleFactory

namespace Forest

section Cherries

variable {F : Forest}

/-- **One subtree between two nodes**: `p` has the sibling `b` and the uncle `q`. -/
theorem between_of_uncle (hF : F.Distinct) {p q b : Tree} (hu : F.uncle p = some q)
    (hb : F.sibling p = some b) : ∃ top ∈ F.subtrees,
      F.parent q = some top ∧ top.labels = p.labels ∪ b.labels ∪ q.labels ∧
      p.labels ∪ b.labels ∈ F.clusters ∧ Disjoint p.labels b.labels ∧
      Disjoint (p.labels ∪ b.labels) q.labels ∧ p ∈ F.subtrees ∧ b ∈ F.subtrees ∧ q ∈ F.subtrees := by
  obtain ⟨s, hs, -, hmem, hp, hbF, hlab, hd⟩ := exists_of_sibling hF hb
  rw [uncle, hs, Option.bind_some] at hu
  obtain ⟨top, -, htop, hmem', -, hq, hlab', hd'⟩ := exists_of_sibling hF hu
  rw [hlab] at hlab' hd'
  exact ⟨top, hmem', htop, hlab', hlab ▸ labels_mem_clusters hmem, hd, hd', hp, hbF, hq⟩

/-- **Two subtrees between two nodes**: `p` has the sibling `b₁` and the uncle `b₂`,
and its parent the uncle `q`. -/
theorem between_of_parent_uncle (hF : F.Distinct) {p q b₁ b₂ : Tree}
    (hu : (F.parent p).bind F.uncle = some q) (hb₁ : F.sibling p = some b₁)
    (hb₂ : F.uncle p = some b₂) : ∃ top ∈ F.subtrees,
      F.parent q = some top ∧ top.labels = p.labels ∪ b₁.labels ∪ b₂.labels ∪ q.labels ∧
      p.labels ∪ b₁.labels ∈ F.clusters ∧ p.labels ∪ b₁.labels ∪ b₂.labels ∈ F.clusters ∧
      Disjoint p.labels b₁.labels ∧ Disjoint (p.labels ∪ b₁.labels) b₂.labels ∧
      Disjoint (p.labels ∪ b₁.labels ∪ b₂.labels) q.labels ∧
      p ∈ F.subtrees ∧ b₁ ∈ F.subtrees ∧ b₂ ∈ F.subtrees ∧ q ∈ F.subtrees := by
  obtain ⟨s, hs, -, hmem, hp, hb₁F, hlab, hd⟩ := exists_of_sibling hF hb₁
  rw [uncle, hs, Option.bind_some] at hb₂
  rw [hs, Option.bind_some] at hu
  obtain ⟨top, htop, hq, hlab', hcl, hd', hd'', -, hb₂F, hqF⟩ := between_of_uncle hF hu hb₂
  rw [hlab] at hlab' hcl hd' hd''
  exact ⟨top, htop, hq, hlab', hlab ▸ labels_mem_clusters hmem, hcl, hd, hd', hd'', hp, hb₁F, hb₂F, hqF⟩

end Cherries

end Forest

namespace SiblingRuleFactory

open Forest

variable {F : Forest}

/-- The subtrees `B` are all there is between the nodes `p` and `q`, and an uncle of
one of the two is one of them or hangs next to all of them. -/
structure BNodes (F : Forest) (p q : Tree) (B : List Tree) : Prop where
  mem : ∀ b ∈ B, b ∈ F.subtrees
  pendant : ∀ b ∈ B, ∃ P ∈ F.clusters, P ∪ b.labels ∈ F.clusters ∧ Disjoint P b.labels ∧
    (p.labels ⊆ P ∧ Disjoint (P ∪ b.labels) q.labels ∨
      q.labels ⊆ P ∧ Disjoint (P ∪ b.labels) p.labels)
  cluster : p.labels ∪ q.labels ∪ Forest.labels B ∈ F.clusters
  uncle : ∀ u, F.uncle p = some u ∨ F.uncle q = some u → u ≠ p → u ≠ q →
    u ∈ B ∨ u.labels ∪ (p.labels ∪ q.labels ∪ Forest.labels B) ∈ F.clusters

/-- The B nodes do not depend on the order of the pair. -/
theorem BNodes.symm {p q : Tree} {B : List Tree} (h : BNodes F p q B) : BNodes F q p B := by
  refine ⟨h.mem, fun b hb => ?_, ?_, fun u hu hq hp => ?_⟩
  · obtain ⟨P, hP, hPb, hd, hor⟩ := h.pendant b hb
    exact ⟨P, hP, hPb, hd, hor.symm⟩
  · rw [Finset.union_comm q.labels]
    exact h.cluster
  · rw [Finset.union_comm q.labels]
    exact h.uncle u hu.symm hp hq

/-- The uncle of the higher of the two nodes hangs next to all subtrees between. -/
theorem union_mem_of_uncle (hF : F.Distinct) {q top u : Tree} (hq : F.parent q = some top)
    (hu : F.uncle q = some u) : u.labels ∪ top.labels ∈ F.clusters := by
  rw [Forest.uncle, hq, Option.bind_some] at hu
  obtain ⟨s, -, -, hs, -, -, hlab, -⟩ := exists_of_sibling hF hu
  rw [Finset.union_comm, ← hlab]
  exact labels_mem_clusters hs

/-- The sibling of a node with an uncle is the only B node. -/
theorem bNodes_one (hF : F.Distinct) {p q b : Tree} (hu : F.uncle p = some q)
    (hb : F.sibling p = some b) : BNodes F p q [b] := by
  obtain ⟨top, htop, hq, hlab, hcl, hd, hd', hp, hbF, hqF⟩ := between_of_uncle hF hu hb
  have hall : p.labels ∪ q.labels ∪ Forest.labels [b] = top.labels := by
    rw [hlab, Forest.labels_cons, Forest.labels_nil, Finset.union_empty, Finset.union_right_comm]
  refine ⟨by simpa using hbF, ?_, hall ▸ labels_mem_clusters htop, fun u hu' hup huq => ?_⟩
  · intro b' hb'
    obtain rfl := List.mem_singleton.1 hb'
    exact ⟨p.labels, labels_mem_clusters hp, hcl, hd, Or.inl ⟨Finset.Subset.refl _, hd'⟩⟩
  · rcases hu' with hu' | hu'
    · exact absurd (Option.some.inj (hu'.symm.trans hu)) huq
    · exact Or.inr (hall ▸ union_mem_of_uncle hF hq hu')

/-- Two B nodes have no common label. -/
theorem disjoint_of_parent_uncle (hF : F.Distinct) {p q b₁ b₂ : Tree}
    (hu : (F.parent p).bind F.uncle = some q) (hb₁ : F.sibling p = some b₁)
    (hb₂ : F.uncle p = some b₂) : Disjoint b₁.labels b₂.labels := by
  obtain ⟨top, -, -, -, -, -, -, hd, -⟩ := between_of_parent_uncle hF hu hb₁ hb₂
  exact hd.mono_left Finset.subset_union_right

/-- The sibling and the uncle are the two B nodes. -/
theorem bNodes_two (hF : F.Distinct) {p q b₁ b₂ : Tree} (hu : (F.parent p).bind F.uncle = some q)
    (hb₁ : F.sibling p = some b₁) (hb₂ : F.uncle p = some b₂) : BNodes F p q [b₁, b₂] := by
  obtain ⟨top, htop, hq, hlab, hcl, hcl', hd, hd', hd'', hp, hb₁F, hb₂F, hqF⟩ :=
    between_of_parent_uncle hF hu hb₁ hb₂
  have hall : p.labels ∪ q.labels ∪ Forest.labels [b₁, b₂] = top.labels := by
    rw [hlab]
    simp only [Forest.labels_cons, Forest.labels_nil, Finset.union_empty]
    ext x
    simp only [Finset.mem_union]
    tauto
  refine ⟨?_, ?_, hall ▸ labels_mem_clusters htop, fun u hu' hup huq => ?_⟩
  · intro b hb
    rcases List.mem_pair.1 hb with rfl | rfl
    · exact hb₁F
    · exact hb₂F
  · intro b hb
    rcases List.mem_pair.1 hb with rfl | rfl
    · refine ⟨p.labels, labels_mem_clusters hp, hcl, hd, Or.inl ⟨Finset.Subset.refl _, ?_⟩⟩
      exact hd''.mono_left Finset.subset_union_left
    · exact ⟨_, hcl, hcl', hd', Or.inl ⟨Finset.subset_union_left, hd''⟩⟩
  · rcases hu' with hu' | hu'
    · exact Or.inl (by simp [Option.some.inj (hu'.symm.trans hb₂)])
    · exact Or.inr (hall ▸ union_mem_of_uncle hF hq hu')

/-- **What `checkBNodes` finds** are all subtrees between the two nodes. -/
theorem bNodes_of_checkBNodes (hF : F.Distinct) {p q b₁ : Tree} {b₂ : Option Tree}
    (h : checkBNodes F p q = some (b₁, b₂)) :
    BNodes F p q (b₁ :: b₂.toList) ∧ ∀ b ∈ b₂, Disjoint b₁.labels b.labels := by
  unfold checkBNodes at h
  split_ifs at h with h₁ h₂ h₃ h₄
  · obtain ⟨b, hb, he⟩ := Option.map_eq_some_iff.1 h
    obtain ⟨rfl, rfl⟩ := Prod.mk.inj he
    exact ⟨bNodes_one hF h₁ hb, by simp⟩
  · obtain ⟨b, hb, he⟩ := Option.map_eq_some_iff.1 h
    obtain ⟨rfl, rfl⟩ := Prod.mk.inj he
    exact ⟨(bNodes_one hF h₂ hb).symm, by simp⟩
  · obtain ⟨b, hb, he⟩ := Option.bind_eq_some_iff.1 h
    obtain ⟨b', hb', he⟩ := Option.map_eq_some_iff.1 he
    obtain ⟨rfl, rfl⟩ := Prod.mk.inj he
    refine ⟨bNodes_two hF h₃ hb hb', fun _ h => ?_⟩
    exact Option.some.inj h ▸ disjoint_of_parent_uncle hF h₃ hb hb'
  · obtain ⟨b, hb, he⟩ := Option.bind_eq_some_iff.1 h
    obtain ⟨b', hb', he⟩ := Option.map_eq_some_iff.1 he
    obtain ⟨rfl, rfl⟩ := Prod.mk.inj he
    refine ⟨(bNodes_two hF h₄ hb hb').symm, fun _ h => ?_⟩
    exact Option.some.inj h ▸ disjoint_of_parent_uncle hF h₄ hb hb'

/-- Nothing lies between the labels of a cherry. -/
theorem Between.of_cherry {C : Finset (Finset Label)} {a c : Label} (h : {a, c} ∈ C) :
    Between C a c ∅ :=
  ⟨by simpa using h, by simp⟩

/-- Terminals between two terminals are labels between two labels. -/
theorem BNodes.between {a c : Label} {p q : Tree} {B : List Tree} (h : BNodes F p q B)
    (hp : p.labels = {a}) (hq : q.labels = {c}) (hB : ∀ b ∈ B, ∃ x, b.labels = {x}) :
    Between F.clusters a c (Forest.labels B) := by
  have hcl := h.cluster
  rw [hp, hq] at hcl
  refine ⟨hcl, fun x hx => ?_⟩
  obtain ⟨b, hb, hxb⟩ := mem_labels.1 hx
  obtain ⟨y, hy⟩ := hB b hb
  obtain rfl : x = y := by simpa [hy] using hxb
  obtain ⟨P, hP, hPb, hd, hor⟩ := h.pendant b hb
  rw [hy] at hPb hd hor
  refine ⟨hy ▸ labels_mem_clusters (h.mem b hb), P, hP, hPb, hd, ?_⟩
  rw [hp, hq, Finset.singleton_subset_iff, Finset.disjoint_singleton_right,
    Finset.singleton_subset_iff, Finset.disjoint_singleton_right] at hor
  exact hor

/-- The labels assigned to `b1Label` and `b2Label`. -/
def Flags.labels (s : Flags) : Finset Label := ({s.b1Label, s.b2Label} : Finset Label).erase 0

/-- The labels of the flags are those that were assigned. -/
theorem Flags.mem_labels {s : Flags} {b : Label} :
    b ∈ s.labels ↔ b ≠ 0 ∧ (b = s.b1Label ∨ b = s.b2Label) := by
  simp [Flags.labels]

/-- Only `b1Label` and `b2Label` change, a new label takes the first free place. -/
structure Assigned (possible : Label) (s s' : Flags) : Prop where
  eq : s' = { s with b1Label := s'.b1Label, b2Label := s'.b2Label }
  mem : possible ∈ s'.labels
  sub : s.labels ⊆ s'.labels
  le : s'.labels ⊆ insert possible s.labels
  order : (s.b1Label = 0 → s.b2Label = 0) → s'.b1Label = 0 → s'.b2Label = 0
  ne : (s.b2Label ≠ 0 → s.b1Label ≠ s.b2Label) → s'.b2Label ≠ 0 → s'.b1Label ≠ s'.b2Label

/-- A label that is assigned is one of the two. -/
theorem assigned_of_assign {s s' : Flags} {possible : Label} (hp : possible ≠ 0)
    (h : s.assign possible = some s') : Assigned possible s s' := by
  unfold Flags.assign at h
  split_ifs at h with h₁ h₂ h₃
  · obtain rfl := Option.some.inj h
    exact ⟨rfl, Flags.mem_labels.2 ⟨hp, h₁⟩, Finset.Subset.refl _, Finset.subset_insert _ _, id, id⟩
  · obtain rfl := Option.some.inj h
    refine ⟨rfl, Flags.mem_labels.2 ⟨hp, Or.inl rfl⟩, fun b hb => ?_, fun b hb => ?_,
      fun _ h => absurd h hp, fun _ _ he => h₁ (Or.inr he)⟩
    · obtain ⟨hb₀, hb⟩ := Flags.mem_labels.1 hb
      exact Flags.mem_labels.2 ⟨hb₀, Or.inr (hb.resolve_left fun he => hb₀ (he.trans h₂))⟩
    · obtain ⟨hb₀, hb⟩ := Flags.mem_labels.1 hb
      rcases hb with rfl | hb
      · exact Finset.mem_insert_self _ _
      · exact Finset.mem_insert_of_mem (Flags.mem_labels.2 ⟨hb₀, Or.inr hb⟩)
  · obtain rfl := Option.some.inj h
    refine ⟨rfl, Flags.mem_labels.2 ⟨hp, Or.inr rfl⟩, fun b hb => ?_, fun b hb => ?_,
      fun _ h => absurd h h₂, fun _ _ he => h₁ (Or.inl he.symm)⟩
    · obtain ⟨hb₀, hb⟩ := Flags.mem_labels.1 hb
      exact Flags.mem_labels.2 ⟨hb₀, Or.inl (hb.resolve_right fun he => hb₀ (he.trans h₃))⟩
    · obtain ⟨hb₀, hb⟩ := Flags.mem_labels.1 hb
      rcases hb with hb | rfl
      · exact Finset.mem_insert_of_mem (Flags.mem_labels.2 ⟨hb₀, Or.inl hb⟩)
      · exact Finset.mem_insert_self _ _

/-- **What the local variables say about the forests checked so far.**  `x` is the
label of the uncle of the pair in forest 0, or `0`. -/
structure Checked (a c x : Label) (done : List Forest) (s : Flags) : Prop where
  equal : s.equalPairRule = true → ∀ F ∈ done, {a, c} ∈ F.clusters
  order : s.b1Label = 0 → s.b2Label = 0
  ne : s.b2Label ≠ 0 → s.b1Label ≠ s.b2Label
  found : s.bRule = true ∨ s.twoBRule = true → ∀ b ∈ s.labels, ∃ F ∈ done, ∃ B, B ⊆ s.labels ∧
    Between F.clusters a c B ∧ b ∈ B
  one : s.bRule = true → ∀ F ∈ done, ∃ B, B ⊆ s.labels ∧ B.card ≤ 1 ∧ Between F.clusters a c B
  filledOne : s.bRule = true → s.equalPairRule = false → s.b1Label ≠ 0
  two : s.twoBRule = true → x ≠ 0 ∧ ∀ F ∈ done, ∃ B, B ⊆ s.labels ∧ Between F.clusters a c B ∧
    (x ∈ B ∨ insert x ({a, c} ∪ B) ∈ F.clusters)
  filledTwo : s.twoBRule = true → s.bRule = false → s.b2Label ≠ 0
  reverse : s.reverseBRule = true → x ≠ 0 ∧ ∀ F ∈ done,
    {a, c} ∈ F.clusters ∧ {a, c, x} ∈ F.clusters ∨
      {a, x} ∈ F.clusters ∧ s.reverseBLabel = c ∨ {c, x} ∈ F.clusters ∧ s.reverseBLabel = a
  reverseSet : s.reverseBRule = true → s.equalPairRule = false → ∃ F ∈ done,
    {a, x} ∈ F.clusters ∧ s.reverseBLabel = c ∨ {c, x} ∈ F.clusters ∧ s.reverseBLabel = a

section CheckForest

variable {a c x : Label} {pa pc : Ptr} {ma mc : Finset Label}

/-- Sibling leaves are a cherry. -/
theorem cherry_of_sibling (hF : F.Distinct)
    (h : F.sibling (.leaf pa a ma) = some (.leaf pc c mc)) : {a, c} ∈ F.clusters := by
  obtain ⟨s, -, -, hs, -, -, hlab, -⟩ := exists_of_sibling hF h
  rw [show ({a, c} : Finset Label) = s.labels from hlab.symm]
  exact labels_mem_clusters hs

/-- The label of the uncle lies right above the cherry. -/
theorem uncle_of_uncleLabel (hF : F.Distinct)
    (h : F.sibling (.leaf pa a ma) = some (.leaf pc c mc))
    (hx : F.uncleLabel (.leaf pa a ma) = some x) : {a, c, x} ∈ F.clusters := by
  obtain ⟨u, hu, hux⟩ := Option.bind_eq_some_iff.1 hx
  obtain ⟨p, m, rfl⟩ := Tree.terminalToLabel_eq_some.1 hux
  obtain ⟨s, hs, -, -, -, -, hlab, -⟩ := exists_of_sibling hF h
  have := union_mem_of_uncle hF hs hu
  rw [hlab] at this
  have heq : ({a, c, x} : Finset Label) = {x} ∪ ({a} ∪ {c}) := by
    ext y
    simp only [Finset.mem_insert, Finset.mem_singleton, Finset.mem_union]
    tauto
  rw [heq]
  exact this

/-- The forest has the pair as siblings. -/
theorem checked_siblings (hF : F.Distinct) {done : List Forest} {s s' : Flags}
    (hs : Checked a c x done s) (h : F.sibling (.leaf pa a ma) = some (.leaf pc c mc))
    (hs' : s' = s ∧ ((s.twoBRule = true ∨ s.reverseBRule = true) →
        F.uncleLabel (.leaf pa a ma) = some x) ∨
      s' = { s with twoBRule := false, reverseBRule := false }) :
    Checked a c x (F :: done) s' := by
  have hcherry := cherry_of_sibling hF h
  have hbet : ∃ B, B ⊆ s.labels ∧ B.card ≤ 1 ∧ Between F.clusters a c B :=
    ⟨∅, by simp, by simp, Between.of_cherry hcherry⟩
  have hequal : s.equalPairRule = true → ∀ G ∈ F :: done, {a, c} ∈ G.clusters := by
    intro he G hG
    rcases List.mem_cons.1 hG with rfl | hG
    · exact hcherry
    · exact hs.equal he G hG
  have hfound : s.bRule = true ∨ s.twoBRule = true → ∀ b ∈ s.labels, ∃ G ∈ F :: done, ∃ B,
      B ⊆ s.labels ∧ Between G.clusters a c B ∧ b ∈ B := by
    intro hor b hb
    obtain ⟨G, hG, hB⟩ := hs.found hor b hb
    exact ⟨G, List.mem_cons_of_mem _ hG, hB⟩
  have hone : s.bRule = true → ∀ G ∈ F :: done, ∃ B, B ⊆ s.labels ∧ B.card ≤ 1 ∧
      Between G.clusters a c B := by
    intro hb G hG
    rcases List.mem_cons.1 hG with rfl | hG
    · exact hbet
    · exact hs.one hb G hG
  rcases hs' with ⟨rfl, hx⟩ | rfl
  · refine ⟨hequal, hs.order, hs.ne, hfound, hone, hs.filledOne, fun ht => ⟨(hs.two ht).1, ?_⟩,
      hs.filledTwo, fun hr => ⟨(hs.reverse hr).1, ?_⟩, fun hr he => ?_⟩
    · intro G hG
      rcases List.mem_cons.1 hG with rfl | hG
      · refine ⟨∅, by simp, Between.of_cherry hcherry, Or.inr ?_⟩
        have := uncle_of_uncleLabel hF h (hx (Or.inl ht))
        rwa [show insert x ({a, c} ∪ ∅) = ({a, c, x} : Finset Label) by ext y; simp; tauto]
      · exact (hs.two ht).2 G hG
    · intro G hG
      rcases List.mem_cons.1 hG with rfl | hG
      · exact Or.inl ⟨hcherry, uncle_of_uncleLabel hF h (hx (Or.inr hr))⟩
      · exact (hs.reverse hr).2 G hG
    · obtain ⟨G, hG, hor⟩ := hs.reverseSet hr he
      exact ⟨G, List.mem_cons_of_mem _ hG, hor⟩
  · exact ⟨hequal, hs.order, hs.ne, fun hor => hfound (hor.imp id fun h => absurd h Bool.false_ne_true),
      hone, hs.filledOne, fun h => absurd h Bool.false_ne_true, fun h => absurd h Bool.false_ne_true,
      fun h => absurd h Bool.false_ne_true, fun h => absurd h Bool.false_ne_true⟩

/-- What the checks of the uncle change in a forest where the pair are no siblings. -/
structure UncleChecked (F : Forest) (a c x : Label) (p q : Tree) (s s' : Flags) : Prop where
  eq : s' = { s with
    twoBRule := s'.twoBRule, reverseBRule := s'.reverseBRule, reverseBLabel := s'.reverseBLabel }
  two : s'.twoBRule = true → s.twoBRule = true ∧
    ∃ u, u.labels = {x} ∧ (F.uncle p = some u ∨ F.uncle q = some u)
  reverse : s'.reverseBRule = true → s.reverseBRule = true ∧
    (s.reverseBLabel ≠ 0 → s'.reverseBLabel = s.reverseBLabel) ∧
    ({a, x} ∈ F.clusters ∧ s'.reverseBLabel = c ∨ {c, x} ∈ F.clusters ∧ s'.reverseBLabel = a)

/-- Siblings with one label each are a pair. -/
theorem pair_of_sibling (hF : F.Distinct) {n m : Tree} {y z : Label} (h : F.sibling n = some m)
    (hn : n.labels = {y}) (hm : m.labels = {z}) : {z, y} ∈ F.clusters := by
  obtain ⟨s, -, -, hs, -, -, hlab, -⟩ := exists_of_sibling hF h
  rw [Finset.pair_comm, show ({y, z} : Finset Label) = s.labels by rw [hlab, hn, hm]; rfl]
  exact labels_mem_clusters hs

/-- What the check of the uncle comes to. -/
theorem uncleChecked_of_checkUncle (hF : F.Valid) (hx : x ≠ 0 → x ∈ F.labels) {s s' : Flags}
    (hx₀ : s.twoBRule = true ∨ s.reverseBRule = true → x ≠ 0)
    (h : checkUncle a c x F (.leaf pa a ma) (.leaf pc c mc) s = some s') :
    UncleChecked F a c x (.leaf pa a ma) (.leaf pc c mc) s s' := by
  unfold checkUncle at h
  by_cases hflags : (!s.reverseBRule && !s.twoBRule) = true
  · rw [if_pos hflags] at h
    obtain rfl := Option.some.inj h
    simp only [Bool.and_eq_true, Bool.not_eq_true'] at hflags
    exact ⟨rfl, fun ht => absurd ht (by simp [hflags.2]), fun hr => absurd hr (by simp [hflags.1])⟩
  rw [if_neg hflags] at h
  have hx₀' : x ≠ 0 := hx₀ (by
    cases h₁ : s.twoBRule <;> cases h₂ : s.reverseBRule <;> simp [h₁, h₂] at hflags ⊢)
  obtain ⟨p, m, hterm, hmem⟩ := exists_labelToTerminal hF (hx hx₀')
  rw [hterm, Option.map_some] at h
  have hrev : ∀ {s₁ : Flags},
      s₁ = (if s.reverseBRule then
        checkReverseB F (.leaf pa a ma) (.leaf pc c mc) (.leaf p x m) a c s else s) →
      s₁ = { s with reverseBRule := s₁.reverseBRule, reverseBLabel := s₁.reverseBLabel } ∧
      (s₁.reverseBRule = true → s.reverseBRule = true ∧
        (s.reverseBLabel ≠ 0 → s₁.reverseBLabel = s.reverseBLabel) ∧
        ({a, x} ∈ F.clusters ∧ s₁.reverseBLabel = c ∨
          {c, x} ∈ F.clusters ∧ s₁.reverseBLabel = a)) := by
    rintro s₁ rfl
    split_ifs with hr
    · unfold checkReverseB
      dsimp only
      split_ifs with h₁ h₂ h₃ h₄ h₅ h₆
      · exact ⟨rfl, fun _ => ⟨hr, fun hne => absurd h₂ hne,
          Or.inl ⟨pair_of_sibling hF.distinct h₁ rfl rfl, rfl⟩⟩⟩
      · exact ⟨rfl, fun h => by cases h⟩
      · exact ⟨rfl, fun _ => ⟨hr, fun _ => rfl,
          Or.inl ⟨pair_of_sibling hF.distinct h₁ rfl rfl, not_not.1 h₃⟩⟩⟩
      · exact ⟨rfl, fun _ => ⟨hr, fun hne => absurd h₅ hne,
          Or.inr ⟨pair_of_sibling hF.distinct h₄ rfl rfl, rfl⟩⟩⟩
      · exact ⟨rfl, fun h => by cases h⟩
      · exact ⟨rfl, fun _ => ⟨hr, fun _ => rfl,
          Or.inr ⟨pair_of_sibling hF.distinct h₄ rfl rfl, not_not.1 h₆⟩⟩⟩
      · exact ⟨rfl, fun h => by cases h⟩
    · exact ⟨rfl, fun h => absurd h hr⟩
  obtain ⟨he, hr⟩ := hrev rfl
  have hs' := Option.some.inj h
  dsimp only at hs'
  generalize (if s.reverseBRule then
    checkReverseB F (.leaf pa a ma) (.leaf pc c mc) (.leaf p x m) a c s else s) = s₁ at he hr hs'
  rw [he] at hs'
  split_ifs at hs' with htwo
  · subst hs'
    exact ⟨rfl, fun h => absurd h Bool.false_ne_true, hr⟩
  · subst hs'
    refine ⟨rfl, fun ht => ⟨ht, .leaf p x m, rfl, ?_⟩, hr⟩
    by_contra hno
    rw [not_or] at hno
    exact htwo (by simpa [hno.1, hno.2] using ht)

/-- What the subtrees between the pair change. -/
structure BNodesChecked (F : Forest) (a c x : Label) (s s' : Flags) : Prop where
  equalPairRule : s'.equalPairRule = s.equalPairRule
  reverseBRule : s'.reverseBRule = s.reverseBRule
  reverseBLabel : s'.reverseBLabel = s.reverseBLabel
  sub : s.labels ⊆ s'.labels
  order : (s.b1Label = 0 → s.b2Label = 0) → s'.b1Label = 0 → s'.b2Label = 0
  ne : (s.b2Label ≠ 0 → s.b1Label ≠ s.b2Label) → s'.b2Label ≠ 0 → s'.b1Label ≠ s'.b2Label
  one : s'.bRule = true → s.bRule = true ∧
    ∃ b, b ∈ s'.labels ∧ s'.labels ⊆ insert b s.labels ∧ Between F.clusters a c {b}
  two : s'.twoBRule = true → s.twoBRule = true ∧ ∃ B, B.Nonempty ∧ B ⊆ s'.labels ∧
    s'.labels ⊆ s.labels ∪ B ∧ Between F.clusters a c B ∧
    (x ∈ B ∨ insert x ({a, c} ∪ B) ∈ F.clusters) ∧ (s'.bRule = false → s.bRule = true → 2 ≤ B.card)

/-- Without a B rule the checks of the B nodes are vacuous. -/
theorem BNodesChecked.of_false {s s' : Flags} (h₁ : s'.bRule = false) (h₂ : s'.twoBRule = false)
    (heq : s'.equalPairRule = s.equalPairRule) (hr : s'.reverseBRule = s.reverseBRule)
    (hrl : s'.reverseBLabel = s.reverseBLabel) (hsub : s.labels ⊆ s'.labels)
    (horder : (s.b1Label = 0 → s.b2Label = 0) → s'.b1Label = 0 → s'.b2Label = 0)
    (hne : (s.b2Label ≠ 0 → s.b1Label ≠ s.b2Label) → s'.b2Label ≠ 0 → s'.b1Label ≠ s'.b2Label) :
    BNodesChecked F a c x s s' :=
  ⟨heq, hr, hrl, hsub, horder, hne, fun h => absurd h (by simp [h₁]), fun h => absurd h (by simp [h₂])⟩

/-- The uncle of one of the pair in a forest with the terminals `B` between. -/
theorem uncle_of_bNodes {B : List Tree} (hB : BNodes F (.leaf pa a ma) (.leaf pc c mc) B)
    (hx : x ≠ a ∧ x ≠ c) {u : Tree} (hu : u.labels = {x})
    (hor : F.uncle (.leaf pa a ma) = some u ∨ F.uncle (.leaf pc c mc) = some u) :
    x ∈ Forest.labels B ∨ insert x ({a, c} ∪ Forest.labels B) ∈ F.clusters := by
  have ne : ∀ {p y m}, x ≠ y → u ≠ Tree.leaf p y m := by
    rintro p y m hxy rfl
    exact hxy (Finset.singleton_inj.1 hu).symm
  rcases hB.uncle u hor (ne hx.1) (ne hx.2) with h | h
  · exact Or.inl (mem_labels.2 ⟨u, h, by simp [hu]⟩)
  · refine Or.inr ?_
    rw [hu] at h
    exact h

/-- The label of a leaf is not `0`. -/
theorem label_pos_of_mem (hF : F.Valid) {p : Ptr} {b : Label} {m : Finset Label}
    (h : .leaf p b m ∈ F.subtrees) : b ≠ 0 := by
  have hv : (Tree.leaf p b m).Valid := hF.of_mem_subtrees h
  exact hv.pos.ne'

/-- What one B node comes to. -/
theorem bNodesChecked_one (hF : F.Valid) {i : ℕ} {b₁ : Tree} {s : Flags}
    (hB : BNodes F (.leaf pa a ma) (.leaf pc c mc) [b₁])
    (hx : s.twoBRule = true → (x ≠ a ∧ x ≠ c) ∧ ∃ u, u.labels = {x} ∧
      (F.uncle (.leaf pa a ma) = some u ∨ F.uncle (.leaf pc c mc) = some u)) :
    BNodesChecked F a c x s (oneBNode i b₁ s) := by
  unfold oneBNode
  dsimp only
  split_ifs with hflags
  · simp only [Bool.and_eq_true, Bool.not_eq_true'] at hflags
    exact .of_false hflags.2 hflags.1 rfl rfl rfl (Finset.Subset.refl _) id id
  cases hterm : b₁.terminalToLabel with
  | none => exact .of_false rfl rfl rfl rfl rfl (Finset.Subset.refl _) id id
  | some b =>
      obtain ⟨p, m, rfl⟩ := Tree.terminalToLabel_eq_some.1 hterm
      have hb₀ : b ≠ 0 := label_pos_of_mem hF (hB.mem _ (List.mem_singleton.2 rfl))
      have hbet := hB.between (a := a) (c := c) rfl rfl fun t ht =>
        ⟨b, by rw [List.mem_singleton.1 ht]; rfl⟩
      have hlab : Forest.labels [Tree.leaf p b m] = {b} := by simp
      rw [hlab] at hbet
      dsimp only
      cases hassign : Flags.assign { s with forestWithBNodes := s.forestWithBNodes ++
          [(i, [(Tree.leaf p b m).ptr])] } b with
      | none => exact .of_false rfl rfl rfl rfl rfl (Finset.Subset.refl _) id id
      | some s' =>
          have ha := assigned_of_assign hb₀ hassign
          dsimp only
          have he := ha.eq
          refine ⟨by rw [he], by rw [he], by rw [he], ha.sub, ha.order, ha.ne, fun h => ⟨?_, b, ha.mem, ha.le, hbet⟩,
            fun h => ?_⟩
          · rw [he] at h; exact h
          · rw [he] at h
            obtain ⟨hxac, u, hu, hor⟩ := hx h
            have huncle := uncle_of_bNodes hB hxac hu hor
            rw [hlab] at huncle
            refine ⟨h, {b}, by simp, by simpa using ha.mem, fun y hy => ?_, hbet, huncle,
              fun h₁ h₂ => ?_⟩
            · have := ha.le hy
              rw [Finset.union_comm, Finset.singleton_union]
              exact this
            · rw [he] at h₁
              exact absurd h₂ (by simpa using h₁)

/-- What two B nodes come to. -/
theorem bNodesChecked_two (hF : F.Valid) {i : ℕ} {b₁ b₂ : Tree} {s : Flags}
    (hB : BNodes F (.leaf pa a ma) (.leaf pc c mc) [b₁, b₂]) (hne : Disjoint b₁.labels b₂.labels)
    (hx : s.twoBRule = true → (x ≠ a ∧ x ≠ c) ∧ ∃ u, u.labels = {x} ∧
      (F.uncle (.leaf pa a ma) = some u ∨ F.uncle (.leaf pc c mc) = some u)) :
    BNodesChecked F a c x s (twoBNodes i b₁ b₂ s) := by
  unfold twoBNodes
  dsimp only
  split_ifs with hflags
  · exact .of_false rfl (by simpa using hflags) rfl rfl rfl (Finset.Subset.refl _) id id
  cases hterm₁ : b₁.terminalToLabel with
  | none => exact .of_false rfl rfl rfl rfl rfl (Finset.Subset.refl _) id id
  | some x₁ =>
  cases hterm₂ : b₂.terminalToLabel with
  | none => exact .of_false rfl rfl rfl rfl rfl (Finset.Subset.refl _) id id
  | some x₂ =>
      obtain ⟨p, m, rfl⟩ := Tree.terminalToLabel_eq_some.1 hterm₁
      obtain ⟨p', m', rfl⟩ := Tree.terminalToLabel_eq_some.1 hterm₂
      have h₁ : x₁ ≠ 0 := label_pos_of_mem hF (hB.mem _ (List.mem_cons_self ..))
      have h₂ : x₂ ≠ 0 := label_pos_of_mem hF (hB.mem (.leaf p' x₂ m') (by simp))
      have h₁₂ : x₁ ≠ x₂ := by simpa using hne
      have hbet := hB.between (a := a) (c := c) rfl rfl fun t ht => by
        rcases List.mem_pair.1 ht with rfl | rfl
        · exact ⟨x₁, rfl⟩
        · exact ⟨x₂, rfl⟩
      have hlab : Forest.labels [Tree.leaf p x₁ m, Tree.leaf p' x₂ m'] = {x₁, x₂} := by
        rw [Forest.labels_cons, Forest.labels_cons, Forest.labels_nil, Finset.union_empty]
        rfl
      rw [hlab] at hbet
      dsimp only
      cases hassign : Flags.assign { s with forestWithBNodes := s.forestWithBNodes ++
          [(i, [(Tree.leaf p x₁ m).ptr, (Tree.leaf p' x₂ m').ptr])], bRule := false } x₁ with
      | none => exact .of_false rfl rfl rfl rfl rfl (Finset.Subset.refl _) id id
      | some s₁ =>
          have ha := assigned_of_assign h₁ hassign
          have he := ha.eq
          dsimp only
          cases hassign' : Flags.assign s₁ x₂ with
          | none =>
              exact .of_false (by rw [he]) rfl (by rw [he]) (by rw [he]) (by rw [he]) ha.sub ha.order
                ha.ne
          | some s₂ =>
              have ha' := assigned_of_assign h₂ hassign'
              have he' := ha'.eq
              dsimp only
              refine ⟨by rw [he', he], by rw [he', he], by rw [he', he], ha.sub.trans ha'.sub,
                fun h => ha'.order (ha.order h), fun h => ha'.ne (ha.ne h), fun h => ?_, fun h => ?_⟩
              · rw [he', he] at h
                cases h
              · rw [he', he] at h
                obtain ⟨hxac, u, hu, hor⟩ := hx h
                have huncle := uncle_of_bNodes hB hxac hu hor
                rw [hlab] at huncle
                refine ⟨h, {x₁, x₂}, by simp, ?_, fun y hy => ?_, hbet, huncle, fun _ _ => ?_⟩
                · exact Finset.insert_subset (ha'.sub ha.mem)
                    (Finset.singleton_subset_iff.2 ha'.mem)
                · rcases Finset.mem_insert.1 (ha'.le hy) with rfl | hy
                  · simp
                  rcases Finset.mem_insert.1 (ha.le hy) with rfl | hy
                  · simp
                  · exact Finset.mem_union_left _ hy
                · exact (Finset.card_pair h₁₂).ge

/-- Two labels were assigned. -/
theorem Flags.two_le_card {s : Flags} (h₁ : s.b1Label ≠ 0) (h₂ : s.b2Label ≠ 0)
    (hne : s.b1Label ≠ s.b2Label) : 2 ≤ s.labels.card := by
  have hsub : ({s.b1Label, s.b2Label} : Finset Label) ⊆ s.labels := by
    intro y hy
    rcases Finset.mem_insert.1 hy with rfl | hy
    · exact Flags.mem_labels.2 ⟨h₁, Or.inl rfl⟩
    · obtain rfl := Finset.mem_singleton.1 hy
      exact Flags.mem_labels.2 ⟨h₂, Or.inr rfl⟩
  exact (Finset.card_pair hne).ge.trans (Finset.card_le_card hsub)

/-- The second label was assigned. -/
theorem Flags.b2Label_ne_zero {s : Flags} (h : 2 ≤ s.labels.card) : s.b2Label ≠ 0 := by
  intro h₂
  have hsub : s.labels ⊆ {s.b1Label} := by
    intro y hy
    obtain ⟨hy₀, rfl | rfl⟩ := Flags.mem_labels.1 hy
    · exact Finset.mem_singleton_self _
    · exact absurd h₂ hy₀
  have := Finset.card_le_card hsub
  rw [Finset.card_singleton] at this
  omega

/-- **The forest has subtrees between the pair**: the checks of the uncle and of the
subtrees keep what the local variables say. -/
theorem checked_bNodes {done : List Forest} {s s₁ s' : Flags} (hs : Checked a c x done s)
    (ha : a ≠ 0) (hc : c ≠ 0) {p q : Tree}
    (hu : UncleChecked F a c x p q { s with equalPairRule := false } s₁)
    (hb : BNodesChecked F a c x s₁ s') : Checked a c x (F :: done) s' := by
  have he := hu.eq
  have hequal : s'.equalPairRule = false := by rw [hb.equalPairRule, he]
  have hbRule : s₁.bRule = s.bRule := by rw [he]
  have hb₁ : s₁.b1Label = s.b1Label := by rw [he]
  have hb₂ : s₁.b2Label = s.b2Label := by rw [he]
  have hlab : s₁.labels = s.labels := by rw [Flags.labels, hb₁, hb₂, Flags.labels]
  have hsub : s.labels ⊆ s'.labels := hlab ▸ hb.sub
  have horder : s'.b1Label = 0 → s'.b2Label = 0 := hb.order (by rw [hb₁, hb₂]; exact hs.order)
  have hne : s'.b2Label ≠ 0 → s'.b1Label ≠ s'.b2Label := hb.ne (by rw [hb₁, hb₂]; exact hs.ne)
  have hbefore : s'.bRule = true ∨ s'.twoBRule = true → s.bRule = true ∨ s.twoBRule = true := by
    rintro (h | h)
    · exact Or.inl (hbRule ▸ (hb.one h).1)
    · exact Or.inr (hu.two (hb.two h).1).1
  have hhere : s'.bRule = true ∨ s'.twoBRule = true → ∃ B, B ⊆ s'.labels ∧
      s'.labels ⊆ s.labels ∪ B ∧ Between F.clusters a c B := by
    rintro (h | h)
    · obtain ⟨-, b, hbs, hsb, hbet⟩ := hb.one h
      refine ⟨{b}, Finset.singleton_subset_iff.2 hbs, ?_, hbet⟩
      rw [Finset.union_comm, Finset.singleton_union, ← hlab]
      exact hsb
    · obtain ⟨-, B, -, hBs, hsB, hbet, -⟩ := hb.two h
      exact ⟨B, hBs, hlab ▸ hsB, hbet⟩
  refine ⟨fun h => absurd h (by simp [hequal]), horder, hne, fun h b hbl => ?_, fun h G hG => ?_,
    fun h _ => ?_, fun h => ?_, fun h h' => ?_, fun h => ?_, fun h _ => ?_⟩
  · obtain ⟨B, hBs, hsB, hbet⟩ := hhere h
    rcases Finset.mem_union.1 (hsB hbl) with hold | hnew
    · obtain ⟨G, hG, B', hB', hbet', hbB'⟩ := hs.found (hbefore h) b hold
      exact ⟨G, List.mem_cons_of_mem _ hG, B', hB'.trans hsub, hbet', hbB'⟩
    · exact ⟨F, List.mem_cons_self .., B, hBs, hbet, hnew⟩
  · obtain ⟨h₁, b, hbs, -, hbet⟩ := hb.one h
    rcases List.mem_cons.1 hG with rfl | hG
    · exact ⟨{b}, Finset.singleton_subset_iff.2 hbs, by simp, hbet⟩
    · obtain ⟨B, hB, hcard, hbet⟩ := hs.one (hbRule ▸ h₁) G hG
      exact ⟨B, hB.trans hsub, hcard, hbet⟩
  · obtain ⟨-, b, hbs, -, -⟩ := hb.one h
    obtain ⟨hb₀, rfl | rfl⟩ := Flags.mem_labels.1 hbs
    · exact hb₀
    · exact fun h₀ => hb₀ (horder h₀)
  · obtain ⟨h₁, B, -, hBs, -, hbet, hx, -⟩ := hb.two h
    obtain ⟨hx₀, hall⟩ := hs.two (hu.two h₁).1
    refine ⟨hx₀, fun G hG => ?_⟩
    rcases List.mem_cons.1 hG with rfl | hG
    · exact ⟨B, hBs, hbet, hx⟩
    · obtain ⟨B', hB', hbet', hx'⟩ := hall G hG
      exact ⟨B', hB'.trans hsub, hbet', hx'⟩
  · obtain ⟨h₁, B, -, hBs, -, -, -, hcard⟩ := hb.two h
    cases hold : s.bRule with
    | true =>
        exact Flags.b2Label_ne_zero ((hcard h' (hbRule.trans hold)).trans (Finset.card_le_card hBs))
    | false =>
        have h₂ := hs.filledTwo (hu.two h₁).1 hold
        exact Flags.b2Label_ne_zero ((Flags.two_le_card (fun h₀ => h₂ (hs.order h₀)) h₂ (hs.ne h₂)).trans
          (Finset.card_le_card hsub))
  · obtain ⟨hr, hkeep, hhere⟩ := hu.reverse (hb.reverseBRule ▸ h)
    obtain ⟨hx₀, hall⟩ := hs.reverse hr
    rw [← hb.reverseBLabel] at hkeep hhere
    refine ⟨hx₀, fun G hG => ?_⟩
    rcases List.mem_cons.1 hG with rfl | hG
    · exact Or.inr hhere
    · rcases hall G hG with hG | ⟨hG, hl⟩ | ⟨hG, hl⟩
      · exact Or.inl hG
      · exact Or.inr (Or.inl ⟨hG, (hkeep (hl ▸ hc)).trans hl⟩)
      · exact Or.inr (Or.inr ⟨hG, (hkeep (hl ▸ ha)).trans hl⟩)
  · obtain ⟨-, -, hhere⟩ := hu.reverse (hb.reverseBRule ▸ h)
    exact ⟨F, List.mem_cons_self .., hb.reverseBLabel ▸ hhere⟩

/-- **One round of the loop.** -/
theorem checked_checkForest (hF : F.Valid) {i : ℕ} {done : List Forest} {s s' : Flags}
    (hs : Checked a c x done s) (ha : a ≠ 0) (hc : c ≠ 0) (hxF : x ≠ 0 → x ∈ F.labels)
    (hxac : x ≠ a ∧ x ≠ c)
    (h : checkForest a c x i F (.leaf pa a ma) (.leaf pc c mc) s = some (some s')) :
    Checked a c x (F :: done) s' := by
  unfold checkForest at h
  split_ifs at h with hsib hflags hcon
  · obtain rfl := Option.some.inj (Option.some.inj h)
    exact checked_siblings hF.distinct hs hsib (Or.inr rfl)
  · obtain rfl := Option.some.inj (Option.some.inj h)
    refine checked_siblings hF.distinct hs hsib (Or.inl ⟨rfl, fun hor => ?_⟩)
    by_contra hne
    exact hflags (by simpa [hne] using hor)
  · cases h
  · cases hcheck : checkUncle a c x F (.leaf pa a ma) (.leaf pc c mc) { s with equalPairRule := false } with
    | none => rw [hcheck] at h; cases h
    | some s₁ =>
        rw [hcheck, Option.map_some] at h
        have hu := uncleChecked_of_checkUncle (s := { s with equalPairRule := false }) hF hxF
          (fun hor => hor.elim (fun ht => (hs.two ht).1) fun hr => (hs.reverse hr).1) hcheck
        have hx : s₁.twoBRule = true → (x ≠ a ∧ x ≠ c) ∧ ∃ u, u.labels = {x} ∧
            (F.uncle (.leaf pa a ma) = some u ∨ F.uncle (.leaf pc c mc) = some u) :=
          fun ht => ⟨hxac, (hu.two ht).2⟩
        refine checked_bNodes hs ha hc hu ?_
        have h' := Option.some.inj h
        cases hbn : checkBNodes F (.leaf pa a ma) (.leaf pc c mc) with
        | none =>
            rw [hbn] at h'
            obtain rfl := Option.some.inj h'
            exact .of_false rfl rfl rfl rfl rfl (Finset.Subset.refl _) id id
        | some b =>
            obtain ⟨b₁, b₂⟩ := b
            rw [hbn] at h'
            obtain ⟨hB, hd⟩ := bNodes_of_checkBNodes hF.distinct hbn
            cases b₂ with
            | none =>
                obtain rfl := Option.some.inj h'
                exact bNodesChecked_one hF hB hx
            | some b₂ =>
                obtain rfl := Option.some.inj h'
                exact bNodesChecked_two hF hB (hd b₂ rfl) hx

/-- **The whole loop.** -/
theorem checked_checkForests (ha : a ≠ 0) (hc : c ≠ 0) (hxac : x ≠ a ∧ x ≠ c) {fs : List Forest}
    (hfs : ∀ G ∈ fs, G.Valid ∧ a ∈ G.labels ∧ c ∈ G.labels ∧ (x ≠ 0 → x ∈ G.labels)) {i : ℕ} {done : List Forest}
    {s s' : Flags} (hs : Checked a c x done s) (h : checkForests a c x i fs s = some (some s')) :
    Checked a c x (fs.reverse ++ done) s' := by
  induction fs generalizing i done s with
  | nil =>
      obtain rfl := Option.some.inj (Option.some.inj h)
      exact hs
  | cons f fs ih =>
      obtain ⟨hf, haf, hcf, hxf⟩ := hfs f (List.mem_cons_self ..)
      unfold checkForests at h
      obtain ⟨pa, ma, hna, -⟩ := exists_labelToTerminal hf haf
      obtain ⟨pc, mc, hnc, -⟩ := exists_labelToTerminal hf hcf
      rw [hna, hnc] at h
      dsimp only at h
      rw [List.reverse_cons, List.append_assoc]
      split at h
      · cases h
      · cases h
      · rename_i s₁ hround
        exact ih (fun G hG => hfs G (List.mem_cons_of_mem _ hG))
          (checked_checkForest hf hs ha hc hxf hxac hround) h

end CheckForest

/-- **The sibling pair `a`, `c` of forest 0** that `allRules` takes, and the label
`x` of its uncle, or `0`. -/
structure Pair (order : List Label) (F : Forest) (a c x : Label) : Prop where
  siblings : getSiblings order F = some (a, c)
  left : a ∈ F.labels
  right : c ∈ F.labels
  ne : a ≠ c
  cherry : {a, c} ∈ F.clusters
  uncle : x ≠ 0 → x ∈ F.labels ∧ {a, c, x} ∈ F.clusters
  uncle_ne : x ≠ a ∧ x ≠ c

/-- `getSiblings` finds a pair of siblings with their uncle. -/
theorem pair_of_getSiblings (hF : F.Valid) {order : List Label} {a c : Label}
    (h : getSiblings order F = some (a, c)) : Pair order F a c (uncleOf F a) := by
  obtain ⟨label, -, hl⟩ := List.exists_of_findSome?_eq_some h
  split at hl
  · cases hl
  rename_i node hnode
  split at hl
  · cases hl
  rename_i s hs
  split at hl
  · rename_i a' c' ha hc
    obtain ⟨rfl, rfl⟩ := Prod.mk.inj (Option.some.inj hl)
    obtain ⟨pa, ma, rfl⟩ := Tree.terminalToLabel_eq_some.1 ha
    obtain ⟨pc, mc, rfl⟩ := Tree.terminalToLabel_eq_some.1 hc
    obtain ⟨top, -, -, htop, haF, hcF, hlab, hd⟩ := exists_of_sibling hF.distinct hs
    have haS : a' ∈ F.labels := subset_labels (labels_mem_clusters haF) (by simp)
    have hcS : c' ∈ F.labels := subset_labels (labels_mem_clusters hcF) (by simp)
    have hne : a' ≠ c' := by simpa using hd
    have hx : uncleOf F a' = (F.uncleLabel (.leaf pa a' ma)).getD 0 := by
      rw [uncleOf, labelToTerminal_leaf hF haF, Option.bind_some]
    refine ⟨h, haS, hcS, hne, cherry_of_sibling hF.distinct hs, fun hx₀ => ?_, ?_⟩
    · cases hu : F.uncleLabel (.leaf pa a' ma) with
      | none => rw [hx, hu] at hx₀; exact absurd rfl hx₀
      | some x =>
          rw [hx, hu, Option.getD_some]
          have := uncle_of_uncleLabel hF.distinct hs hu
          exact ⟨subset_labels this (by simp), this⟩
    · rw [hx]
      cases hu : F.uncleLabel (.leaf pa a' ma) with
      | none => exact ⟨(hF.label_pos haS).ne, (hF.label_pos hcS).ne⟩
      | some x =>
          obtain ⟨u, hu', hux⟩ := Option.bind_eq_some_iff.1 hu
          obtain ⟨p, m, rfl⟩ := Tree.terminalToLabel_eq_some.1 hux
          obtain ⟨s', hs', -, -, -, -, hlab', -⟩ := exists_of_sibling hF.distinct hs
          rw [Forest.uncle, hs', Option.bind_some] at hu'
          obtain ⟨-, -, -, -, -, -, -, hd'⟩ := exists_of_sibling hF.distinct hu'
          rw [hlab'] at hd'
          have hx' := Finset.disjoint_right.1 hd' (Finset.mem_singleton_self x)
          simpa [not_or] using hx'
  · cases hl

/-- Before the loop forest 0 is checked. -/
theorem Pair.checked {order : List Label} {f0 : Forest} {a c x : Label} (hp : Pair order f0 a c x) :
    Checked a c x [f0] { twoBRule := decide (x ≠ 0), reverseBRule := decide (x ≠ 0) } := by
  have hf : ∀ G ∈ [f0], G = f0 := fun G hG => List.mem_singleton.1 hG
  refine ⟨fun _ G hG => hf G hG ▸ hp.cherry, fun _ => rfl, fun h => absurd rfl h,
    fun _ b hb => absurd hb (by simp [Flags.labels]), fun _ G hG => ⟨∅, by simp, by simp, ?_⟩,
    fun _ he => absurd he (by simp), fun ht => ?_, fun _ hb => absurd hb (by simp), fun hr => ?_,
    fun _ he => absurd he (by simp)⟩
  · exact hf G hG ▸ Between.of_cherry hp.cherry
  · have hx := of_decide_eq_true ht
    refine ⟨hx, fun G hG => ⟨∅, by simp, hf G hG ▸ Between.of_cherry hp.cherry, Or.inr ?_⟩⟩
    rw [hf G hG, Finset.union_empty]
    have heq : insert x ({a, c} : Finset Label) = {a, c, x} := by
      ext y
      simp only [Finset.mem_insert, Finset.mem_singleton]
      tauto
    exact heq ▸ (hp.uncle hx).2
  · have hx := of_decide_eq_true hr
    refine ⟨hx, fun G hG => Or.inl ?_⟩
    rw [hf G hG]
    exact ⟨hp.cherry, (hp.uncle hx).2⟩

/-- The other forests have the labels of the pair and of its uncle. -/
theorem Pair.haveLabels {order : List Label} {f0 : Forest} {fs : List Forest} {S : Finset Label} {a c x : Label}
    (hp : Pair order f0 a c x) (hI : ∀ F ∈ f0 :: fs, F.Valid ∧ F.labels = S) :
    ∀ G ∈ fs, G.Valid ∧ a ∈ G.labels ∧ c ∈ G.labels ∧ (x ≠ 0 → x ∈ G.labels) := by
  intro G hG
  obtain ⟨hv, hlab⟩ := hI G (List.mem_cons_of_mem _ hG)
  rw [hlab, ← (hI f0 (List.mem_cons_self ..)).2]
  exact ⟨hv, hp.left, hp.right, fun hx => (hp.uncle hx).1⟩

/-- **What is known when `allRules` returns a rule that cuts labels off.** -/
theorem checked_of_allRules {order : List Label} {f0 : Forest} {fs : List Forest} {S : Finset Label}
    (hI : ∀ F ∈ f0 :: fs, F.Valid ∧ F.labels = S) {rule : Rule}
    (h : allRules order (f0 :: fs) = some (some rule)) :
    ∃ a c x, Pair order f0 a c x ∧ (rule = .acBranching a c ∨ ∃ s,
      Checked a c x (fs.reverse ++ [f0]) s ∧ decideRule a c x s = rule) := by
  have hf0 := (hI f0 (List.mem_cons_self ..)).1
  unfold allRules at h
  dsimp only at h
  cases hsib : getSiblings order f0 with
  | none => rw [hsib] at h; cases h
  | some pair =>
      obtain ⟨a, c⟩ := pair
      rw [hsib] at h
      dsimp only at h
      have hp := pair_of_getSiblings hf0 hsib
      refine ⟨a, c, uncleOf f0 a, hp, ?_⟩
      split at h
      · cases h
      · exact Or.inl (Option.some.inj (Option.some.inj h)).symm
      · rename_i s hrun
        exact Or.inr ⟨s, checked_checkForests (hf0.label_pos hp.left).ne' (hf0.label_pos hp.right).ne'
          hp.uncle_ne (hp.haveLabels hI) hp.checked hrun, Option.some.inj (Option.some.inj h)⟩

end SiblingRuleFactory
end Maf
