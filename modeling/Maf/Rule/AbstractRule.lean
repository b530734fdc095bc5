/-
# The rules at work

`src/Solver/Rule/*.cpp`: what `apply` and `unapply` of every rule do to the
instance in memory and to the protected edges of the context, what `clone` keeps
of a rule, and the two rule lists of `src/Solver/BranchingSolverConfiguration.hpp`.

A rule remembers the actions of its `apply` on a stack and undoes them in reverse
order.  Most rules cut the terminals of some labels off in every forest, one after
another, and give up at the first protected edge (`Body.cutLabel`); they differ in
the labels, in the forests and in the edges they protect.  Nodes of different forests
have different addresses in the source; here a node is named by the number of its
forest and its address there.  `none` is an exception, a missing label or a
missing pointer.

The rules are chosen by the trees that are read off the memory
(`Memory.read`).
-/

import Maf.Action.CollapseSubtreeAction
import Maf.EarlyExit
import Maf.Rule.SiblingRuleFactory
import Maf.Solver.BranchingSolver

namespace Maf

open EarlyExit Prog
open Graph

/-- `graph::Instance` and `Context::protectedEdges`. -/
@[ext] structure Memory where
  forests : List Store
  protectedEdges : Finset (ℕ × Ptr)

/-- An action on the stack of a rule, with the number of its forest. -/
inductive Change where
  | deleteEdge (i : ℕ) (action : DeleteEdgeAction)
  | collapseSubtree (i : ℕ) (action : CollapseSubtreeAction)

/-- A rule with the fields of `AbstractRule` and `AbstractBranchingRule`, its stack
of changes, the last change first, and its edge protections. -/
structure RuleObject where
  rule : Rule
  isApplied : Bool := false
  branch : ℕ := 0
  changes : List Change := []
  edgeProtections : Finset (ℕ × Ptr) := ∅

/-- A part of an `apply`, left by `return RuleReturnCode::CutBranch`. -/
abbrev Body := Prog (RuleObject × Memory)

namespace Body

/-- `for (const auto& f : *instance)`. -/
def forEachForest (f : ℕ → Body) : Body := fun (r, m) => forEach f (List.range m.forests.length) (r, m)

variable (fuel : ℕ)

/-- `changes.emplace(node, forest); changes.top().doAction();` for a cut. -/
def deleteEdge (i : ℕ) (node : Ptr) : Body := fun (r, m) => do
  let s ← m.forests[i]?
  let (action, s) ← DeleteEdgeAction.doAction fuel node s
  some (false, { r with changes := .deleteEdge i action :: r.changes }, { m with forests := m.forests.set i s })

/-- A cut unless the edge is protected. -/
def cutNode (i : ℕ) (node : Ptr) : Body := fun (r, m) =>
  if (i, node) ∈ m.protectedEdges then exit (r, m) else deleteEdge fuel i node (r, m)

/-- A part for a node that has a parent. -/
def ifChild (i : ℕ) (node : Ptr) (f : Body) : Body := fun (r, m) => do
  let s ← m.forests[i]?
  if (s.nodes node).parent.isSome then f (r, m) else skip (r, m)

/-- A part for the terminal of a label. -/
def withTerminal (label : Label) (i : ℕ) (f : Ptr → Body) : Body := fun (r, m) => do
  let s ← m.forests[i]?
  let node ← s.labelToTerminal label
  f node (r, m)

/-- The terminal of a label is cut off, if it has a parent and the edge is not
protected. -/
def cutLabel (label : Label) (i : ℕ) : Body := withTerminal label i fun node => ifChild i node (cutNode fuel i node)

/-- The edge to a node is protected, if it is not already. -/
def protectNode (i : ℕ) (node : Ptr) : Body := fun (r, m) =>
  if (i, node) ∈ m.protectedEdges then skip (r, m)
  else some (false, { r with edgeProtections := insert (i, node) r.edgeProtections },
    { m with protectedEdges := insert (i, node) m.protectedEdges })

/-- The terminal of `toCut` is cut off, and then that of `toKeep` protected. -/
def cutAndProtect (toCut toKeep : Label) (i : ℕ) : Body :=
  withTerminal toCut i fun node =>
    ifChild i node ((cutNode fuel i node).seq (withTerminal toKeep i (protectNode i)))

/-- The parent of the terminal of a label is collapsed. -/
def collapseParent (label : Label) (i : ℕ) : Body := withTerminal label i fun node (r, m) => do
  let s ← m.forests[i]?
  let siblingRoot ← (s.nodes node).parent
  let (action, s) ← CollapseSubtreeAction.doAction siblingRoot s
  some (false, { r with changes := .collapseSubtree i action :: r.changes }, { m with forests := m.forests.set i s })

end Body

open Body

section Rules

variable (fuel : ℕ)

/-- `EqualPairReductionRule::apply`. -/
def EqualPairReductionRule.apply (aLabel : Label) : Body := forEachForest (collapseParent aLabel)

/-- `BRule::apply`; there is no second label when it is `0`. -/
def BRule.apply (b1Label b2Label : Label) : Body :=
  forEachForest fun i => forEach (cutLabel fuel · i) (if b2Label = 0 then [b1Label] else [b1Label, b2Label])

/-- `ReverseBRule::apply`. -/
def ReverseBRule.apply (toCutLabel : Label) : Body := forEachForest (cutLabel fuel toCutLabel)

/-- `TwoBRule::apply`. -/
def TwoBRule.apply (toCutLabel1 toCutLabel2 : Label) : Body :=
  forEachForest fun i => forEach (cutLabel fuel · i) [toCutLabel1, toCutLabel2]

/-- `SingleVertexTreePropagationRule::apply`. -/
def SingleVertexTreePropagationRule.apply (labelsToBeReduced : List Label) : Body :=
  forEachForest fun i => forEach (cutLabel fuel · i) labelsToBeReduced

/-- `GreedyCherryCutRule::apply`. -/
def GreedyCherryCutRule.apply (aLabel : Label) : Body := forEachForest (cutLabel fuel aLabel)

/-- `ForcedCherryCutRule::apply`: the two terminals and the sibling of the first are
cut off in the second forest.  A missing sibling is not protected, but is
dereferenced. -/
def ForcedCherryCutRule.apply (aLabel cLabel : Label) : Body :=
  withTerminal aLabel 1 fun aNode => withTerminal cLabel 1 fun cNode (r, m) => do
    let t2 ← m.forests[1]?
    let bNode := (t2.nodes aNode).sibling
    if (1, aNode) ∈ m.protectedEdges ∨ (∃ b ∈ bNode, (1, b) ∈ m.protectedEdges) ∨ (1, cNode) ∈ m.protectedEdges then
      exit (r, m)
    else do
      let b ← bNode
      forEach (fun node => ifChild 1 node (deleteEdge fuel 1 node)) [aNode, b, cNode] (r, m)

/-- `ACBranchingRule::apply` in the given branch. -/
def ACBranchingRule.apply (aLabel cLabel : Label) : ℕ → Body
  | 1 => forEachForest (cutLabel fuel aLabel)
  | _ => forEachForest (cutAndProtect fuel cLabel aLabel)

/-- `ABCBranchingRule::apply` in the given branch. -/
def ABCBranchingRule.apply (aLabel cLabel : Label) (forestWithBNodes : List (ℕ × List Ptr)) : ℕ → Body
  | 1 => forEach (fun e : ℕ × List Ptr => forEach (cutNode fuel e.1) e.2) forestWithBNodes
  | 2 => forEachForest (cutLabel fuel cLabel)
  | _ => forEachForest (cutAndProtect fuel aLabel cLabel)

end Rules

namespace RuleObject

/-- The return code of an `apply` that comes to its end with `code`. -/
def finish (code : RuleReturnCode) : Bool × RuleObject × Memory → RuleReturnCode × RuleObject × Memory
  | (cut, r, m) => (if cut then .cutBranch else code, r, m)

/-- `maxBranch`; `0` for the rules that do not branch. -/
def maxBranch (r : RuleObject) : ℕ :=
  match r.rule with
  | .acBranching .. => 2
  | .abcBranching .. => 3
  | _ => 0

/-- The rule is an `AbstractBranchingRule`. -/
def isBranchingRule (r : RuleObject) : Bool := decide (0 < r.maxBranch)

/-- `isFullyExplored`. -/
def isFullyExplored (r : RuleObject) : Bool := decide (r.maxBranch ≤ r.branch)

/-- The body of the `apply` of a rule, with the code it ends with. -/
def body (fuel : ℕ) (r : RuleObject) : RuleReturnCode × Body :=
  match r.rule with
  | .cutBranch => (.cutBranch, skip)
  | .checkSingleVertexTrees => (.endBranchWithSolutionCandidate, skip)
  | .singleVertexTreePropagation labels => (.continue, SingleVertexTreePropagationRule.apply fuel labels)
  | .equalPairReduction a _ => (.continue, EqualPairReductionRule.apply a)
  | .bRule b1 b2 => (.continue, BRule.apply fuel b1 b2)
  | .reverseB x => (.continue, ReverseBRule.apply fuel x)
  | .twoB x y => (.continue, TwoBRule.apply fuel x y)
  | .acBranching a c => (.continue, ACBranchingRule.apply fuel a c r.branch)
  | .abcBranching a c bNodes =>
      (if r.branch = 1 then .continueWithRuleSuggestion else .continue,
        ABCBranchingRule.apply fuel a c bNodes r.branch)
  | .forcedCherryCut a c => (.continue, ForcedCherryCutRule.apply fuel a c)
  | .greedyCherryCut a _ => (.continue, GreedyCherryCutRule.apply fuel a)
  | .debugAssertFalse => (.immediateReturn, skip)

/-- **`apply`.**  It throws when the rule is applied already, and when all branches
are visited; `DebugAssertFalseRule` does nothing of this. -/
def apply (fuel : ℕ) (r : RuleObject) (m : Memory) : Option (RuleReturnCode × RuleObject × Memory) :=
  if r.rule = .debugAssertFalse then some (.immediateReturn, r, m)
  else if r.isApplied || (r.isBranchingRule && r.isFullyExplored) then none
  else
    let r := { r with isApplied := true, branch := if r.isBranchingRule then r.branch + 1 else r.branch }
    ((r.body fuel).2 (r, m)).map (finish (r.body fuel).1)

/-- `undoAction`. -/
def undoChange (fuel : ℕ) (forests : List Store) : Change → Option (List Store)
  | .deleteEdge i action => do
      let s ← forests[i]?
      let s ← DeleteEdgeAction.undoAction fuel action s
      some (forests.set i s)
  | .collapseSubtree i action => do
      let s ← forests[i]?
      let s ← CollapseSubtreeAction.undoAction action s
      some (forests.set i s)

/-- `while (not changes.empty())`: the changes undone, the last one first. -/
def undoChanges (fuel : ℕ) : List Change → List Store → Option (List Store)
  | [], forests => some forests
  | c :: cs, forests => do
      let forests ← undoChange fuel forests c
      undoChanges fuel cs forests

/-- **`unapply`.**  It throws when the rule is not applied.  The protections are
given back in the last branch only. -/
def unapply (fuel : ℕ) (r : RuleObject) (m : Memory) : Option (RuleObject × Memory) :=
  if r.rule = .debugAssertFalse then some (r, m)
  else if !r.isApplied then none
  else do
    let forests ← undoChanges fuel r.changes m.forests
    let r := { r with isApplied := false, changes := [] }
    if r.isBranchingRule && decide (r.branch = r.maxBranch) then
      some ({ r with edgeProtections := ∅ }, ⟨forests, m.protectedEdges \ r.edgeProtections⟩)
    else some (r, ⟨forests, m.protectedEdges⟩)

/-- `clone`: the arguments of the constructor, and the branch to be entered again. -/
def clone (r : RuleObject) : RuleObject :=
  { rule := r.rule
    branch := if r.isBranchingRule then (if r.isApplied then r.branch - 1 else r.branch) else 0 }

/-- `NextRuleSuggestion`. -/
def nextRuleSuggestion (r : RuleObject) : List RuleObject :=
  match r.rule with
  | .abcBranching a c _ => [{ rule := .equalPairReduction a c }]
  | _ => []

end RuleObject

namespace Graph.Store

/-- The terminal at an address. -/
def readLeaf (s : Store) (p : Ptr) : Tree :=
  let label := (s.terminalToLabel p).getD 0
  .leaf p label ((Bitset.elements (s.nodes p).subtreeTerminals).toFinset.erase label)

/-- The tree below an address. -/
def readTree (s : Store) : ℕ → Ptr → Tree
  | 0, p => s.readLeaf p
  | fuel + 1, p =>
      match (s.nodes p).leftChild, (s.nodes p).rightChild with
      | some l, some r => .node p (readTree s fuel l) (readTree s fuel r)
      | _, _ => s.readLeaf p

/-- **The trees of a forest in memory.** -/
def read (fuel : ℕ) (s : Store) : Forest := s.roots.map (s.readTree fuel)

end Graph.Store

/-- The trees of all forests. -/
def Memory.read (fuel : ℕ) (m : Memory) : List Forest := m.forests.map (Store.read fuel)

/-- What the rules take from their surroundings: the order of the labels, the
function `Context::weightFunction`, the order in which a `std::unordered_set` is
iterated, and the bound on the loops over the nodes of a forest. -/
structure Surroundings where
  fuel : ℕ
  heuristicLabelOrder : List Label
  weightFunction : Store → ℚ
  boundedDepthSearch : Bool
  iterated : Memory → List Label → List Label

section IsApplicable

variable (e : Surroundings)

/-- `isApplicableFn`; the inner `none` is `nullptr`. -/
abbrev IsApplicableFn := Context → Memory → Option (Option Rule)

/-- `CutBranchRule::isApplicable`. -/
def CutBranchRule.isApplicable : IsApplicableFn := fun c m =>
  if e.boundedDepthSearch then
    some (if m.forests.any fun f => decide (c.maxSolutionSize < f.roots.length) then some .cutBranch else none)
  else
    some (if m.forests.any fun f => decide (c.bestSolutionWeight ≤ ((e.weightFunction f : ℚ) : WithTop ℚ)) then
      some .cutBranch else none)

/-- `CheckSingleVertexTreesRule::isApplicable`. -/
def CheckSingleVertexTreesRule.isApplicable : IsApplicableFn := fun _ m => do
  let f ← m.forests.head?
  let terminalToLabel := (f.read e.fuel).subtrees.filterMap Tree.terminalToLabel
  some (if f.roots.length = terminalToLabel.length then some .checkSingleVertexTrees else none)

/-- The terminal of the label is a root, in each of the forests. -/
def SingleVertexTreePropagationRule.singleVertexTrees (m : Memory) (label : Label) : List Bool :=
  m.forests.map fun f => (f.labelToTerminal label).any fun p => (f.nodes p).parent.isNone

/-- `SingleVertexTreePropagationRule::isApplicable`. -/
def SingleVertexTreePropagationRule.isApplicable : IsApplicableFn := fun _ m => do
  let f ← m.forests.head?
  let labels := (f.read e.fuel).subtrees.filterMap Tree.terminalToLabel
  if labels.any fun label => m.forests.any fun f => (f.labelToTerminal label).isNone then none
  else
    let labelsToBeReduced := labels.filter fun label =>
      (singleVertexTrees m label).contains true && (singleVertexTrees m label).contains false
    some (if labelsToBeReduced = [] then none
      else some (.singleVertexTreePropagation (e.iterated m labelsToBeReduced)))

/-- The pair is a sibling pair in each of the forests; `none` for a missing label. -/
def SiblingRuleFactory.siblingsEverywhere (aLabel cLabel : Label) : List Forest → Option Bool
  | [] => some true
  | f :: fs => do
      let a ← f.labelToTerminal aLabel
      let c ← f.labelToTerminal cLabel
      if f.sibling a = some c then siblingsEverywhere aLabel cLabel fs else some false

/-- `SiblingRuleFactory::approximationRule`. -/
def SiblingRuleFactory.approximationRule (order : List Label) : List Forest → Option (Option Rule)
  | [] => none
  | f0 :: fs =>
      match getSiblings order f0 with
      | none => some none
      | some (aLabel, cLabel) => do
          let siblings ← siblingsEverywhere aLabel cLabel fs
          some (some (if siblings then .equalPairReduction aLabel cLabel
            else if fs.length = 1 then .forcedCherryCut aLabel cLabel
            else .greedyCherryCut aLabel cLabel))

/-- `DebugAssertFalseRule::isApplicable`. -/
def DebugAssertFalseRule.isApplicable : IsApplicableFn := fun _ _ => some (some .debugAssertFalse)

/-- The `activeRules` of a default configuration. -/
def defaultRules : List IsApplicableFn :=
  [CutBranchRule.isApplicable e, CheckSingleVertexTreesRule.isApplicable e,
    SingleVertexTreePropagationRule.isApplicable e,
    fun _ m => SiblingRuleFactory.allRules e.heuristicLabelOrder (m.read e.fuel), DebugAssertFalseRule.isApplicable]

/-- The `activeRules` of `BranchingSolverConfiguration::approximationRules`. -/
def approximationRules : List IsApplicableFn :=
  [CheckSingleVertexTreesRule.isApplicable e, SingleVertexTreePropagationRule.isApplicable e,
    fun _ m => SiblingRuleFactory.approximationRule e.heuristicLabelOrder (m.read e.fuel),
    DebugAssertFalseRule.isApplicable]

/-- The first applicable rule; without one a null pointer is dereferenced. -/
def firstApplicable (c : Context) (m : Memory) : List IsApplicableFn → Option Rule
  | [] => none
  | isApplicable :: rest => do
      match ← isApplicable c m with
      | some rule => some rule
      | none => firstApplicable c m rest

/-- **The rules of a configuration.**  An exception leaves nothing behind: no
memory, and no rule. -/
def ruleSystem (activeRules : List IsApplicableFn) : RuleSystem (Option Memory) (Option RuleObject) where
  isApplicable c st := do
    let rule ← firstApplicable c (← st) activeRules
    some { rule := rule }
  apply r st :=
    match (do (← r).apply e.fuel (← st)) with
    | some (code, r, m) => (code, some r, some m)
    | none => (.immediateReturn, none, none)
  nextRuleSuggestion r := (r.map RuleObject.nextRuleSuggestion).getD [] |>.map some
  unapply r st :=
    match (do (← r).unapply e.fuel (← st)) with
    | some (r, m) => (some r, some m)
    | none => (none, none)
  isBranchingRule r := r.any RuleObject.isBranchingRule
  isFullyExplored r := r.any RuleObject.isFullyExplored
  clone r := r.map RuleObject.clone
  weightFunction st := ((st.bind fun m => m.forests.head?).map e.weightFunction).getD 0

end IsApplicable

end Maf
