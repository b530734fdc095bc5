/-
# Reading and writing forests

`src/Graph/ForestIO.cpp`: `ReadNewick`, a machine on characters with a stack of
open clades and one register for the previous child, and `WriteNewick`, which walks
around a tree without a stack; and from `src/Graph/Forest.cpp` the pass that
`ReadNewick` ends with, `sortChildrenAndCollectTerminals`, and `operator==`.

The address of a node is its index in `nodes`, and `size` says how far this vector
has grown.  When it outgrows its capacity, which `reserve` has set to
`2 * numberOfTerminals - 1`, it moves to a buffer of twice the size, as in libstdc++
and libc++, and pointers to the nodes that were there become invalid (`moved`);
what is written or read through one of them is undefined.

`__builtin_ctzll(0)`, which the order of the roots may ask for, is read as `64` in
`readNewick`; in `evalNewick` it is undefined, as the compiler says.  `isdigit` of a
character outside of ASCII is false, and memory suffices for what is reserved.
-/

import Maf.Graph.Newick
import Maf.Graph.SmallestTerminal

namespace Maf
namespace Graph

open Newick (Failure stoi)

/-- How many nodes `nodes` had when it last moved, as the node at `address` is made:
it moves when it is full, and doubles its capacity. -/
def moved (reserved : ℕ) (address : Ptr) : ℕ :=
  if address < reserved then 0 else reserved * 2 ^ Nat.log 2 (address / reserved)

/-- The local variables of `ReadNewick`; `labels` lists the keys of
`labelToTerminal`, and `reserved` is what `reserve` has set. -/
structure Reader where
  reserved : ℕ := 0
  nodes : Nodes := fun _ => {}
  size : ℕ := 0
  terminalToLabel : Ptr → Option Label := fun _ => none
  labelToTerminal : Label → Option Ptr := fun _ => none
  labels : List Label := []
  roots : List Ptr := []
  parentStack : List Ptr := []
  sibling : Option Ptr := none
  currentRoot : Option Ptr := none
  label : List Char := []

namespace Reader

/-- After `emplace_back` in `addNode`, a pointer that is written through is not valid
any more. -/
def dangles (σ : Reader) : Bool :=
  match σ.parentStack with
  | [] => false
  | parent :: _ => decide (parent < moved σ.reserved σ.size) || σ.sibling.any (· < moved σ.reserved σ.size)

/-- Whether `addNode` is defined. -/
def emplace (σ : Reader) : Except Failure Unit := if σ.dangles then .error .undefined else .ok ()

/-- `addNode`, where it is defined. -/
def addNode (σ : Reader) : Ptr × Reader :=
  let terminal := σ.size
  let h := σ.nodes.modify terminal fun _ => {}
  let h :=
    match σ.parentStack with
    | [] => h
    | parent :: _ =>
        let h := h.setParent terminal (some parent)
        match σ.sibling with
        | none => h.setLeftChild parent (some terminal)
        | some sibling =>
            ((h.setRightChild parent (some terminal)).setSibling sibling (some terminal)).setSibling terminal
              (some sibling)
  (terminal, { σ with
    nodes := h
    size := σ.size + 1
    currentRoot := if σ.currentRoot = none then some terminal else σ.currentRoot })

/-- A new terminal with the label `lab`; `emplace` keeps an entry that is there. -/
def addTerminal (σ : Reader) (lab : Label) : Ptr × Reader :=
  let (terminal, σ) := σ.addNode
  (terminal, { σ with
    terminalToLabel := if (σ.terminalToLabel terminal).isSome then σ.terminalToLabel
      else Function.update σ.terminalToLabel terminal (some lab)
    labelToTerminal := if (σ.labelToTerminal lab).isSome then σ.labelToTerminal
      else Function.update σ.labelToTerminal lab (some terminal)
    labels := if (σ.labelToTerminal lab).isSome then σ.labels else lab :: σ.labels
    label := [] })

/-- The lines for `;`: a pending label becomes a terminal, whose node is made before
its number is known. -/
def emit (σ : Reader) : Except Failure Reader :=
  if σ.label = [] then .ok σ
  else do
    σ.emplace
    let lab ← stoi σ.label
    .ok (σ.addTerminal lab).2

/-- The lines for `,`: the terminal is the previous child. -/
def separate (σ : Reader) : Except Failure Reader :=
  if σ.label = [] then .ok σ
  else do
    σ.emplace
    let lab ← stoi σ.label
    let (terminal, σ) := σ.addTerminal lab
    .ok { σ with sibling := some terminal }

/-- The end of the lines for `)`. -/
def close (σ : Reader) : Reader :=
  match σ.parentStack with
  | [] => { σ with sibling := none }
  | top :: stack => { σ with sibling := some top, parentStack := stack }

/-- The lines for `(`. -/
def clade (σ : Reader) : Reader :=
  let (terminal, σ) := σ.addNode
  { σ with sibling := none, parentStack := terminal :: σ.parentStack }

/-- The loop over the characters of a line, and whether it met `;`. -/
def readLine (σ : Reader) : List Char → Except Failure (Reader × Bool)
  | [] => .ok (σ, false)
  | c :: cs =>
      if c = ';' then do
        let σ ← σ.emit
        .ok (σ, true)
      else if c = ',' then do
        let σ ← σ.separate
        readLine σ cs
      else if c = ')' then do
        let σ ← σ.emit
        readLine σ.close cs
      else if c = '(' then do
        σ.emplace
        readLine σ.clade cs
      else if c.isDigit then readLine { σ with label := σ.label ++ [c] } cs
      else .error (.exception "TreeIO : ReadNewick : unexpected symbol")

/-- The loop over the lines of a tree, and the lines after it. -/
def readTree (σ : Reader) : List (List Char) → Except Failure (Reader × List (List Char))
  | [] => .ok (σ, [])
  | line :: rest =>
      if line = [] ∨ line.head? = some '#' then readTree σ rest
      else do
        let (σ, ended) ← readLine { σ with label := [] } line
        if ended then .ok (σ, rest) else readTree σ rest

/-- The lines at `endTree`. -/
def endTree (σ : Reader) : Except Failure Reader :=
  match σ.currentRoot with
  | none => .error (.exception "ForestIO : ReadNewick : no valid tree found in input")
  | some root => .ok { σ with roots := σ.roots ++ [root], parentStack := [], sibling := none }

/-- The loop over the trees. -/
def readTrees : ℕ → Reader → List (List Char) → Except Failure Reader
  | 0, σ, _ => .ok σ
  | n + 1, σ, ls => do
      let (σ, rest) ← readTree { σ with currentRoot := none } ls
      let σ ← σ.endTree
      readTrees n σ rest

end Reader

/-- `std::vector::resize` with zeros. -/
def resize (numberOfEntries : ℕ) (ws : List Bitset.Word) : List Bitset.Word :=
  (ws ++ List.replicate (numberOfEntries - ws.length) 0).take numberOfEntries

/-- `label - 1` for `unsigned int`. -/
def pred (label : Label) : ℕ := (label + (2 ^ 32 - 1)) % 2 ^ 32

/-- `orderSubtree`; a missing child and an index outside of the vector are not
checked for. -/
def orderSubtree (terminalToLabel : Ptr → Option Label) (numberOfEntries : ℕ) :
    ℕ → Option Ptr → Nodes → Except Failure (Label × Nodes)
  | 0, _, _ => .error .undefined
  | _ + 1, none, _ => .error .undefined
  | fuel + 1, some p, h =>
      let h := h.modify p fun n => { n with subtreeTerminals := resize numberOfEntries n.subtreeTerminals }
      match terminalToLabel p with
      | some label =>
          if pred label / 64 < numberOfEntries then
            .ok (label, h.modify p fun n => { n with
              subtreeTerminals := n.subtreeTerminals.set (pred label / 64) ((1 : Bitset.Word) <<< (pred label % 64)) })
          else .error .undefined
      | none => do
          let (firstMinLabel, h) ← orderSubtree terminalToLabel numberOfEntries fuel (h p).leftChild h
          let (secondMinLabel, h) ← orderSubtree terminalToLabel numberOfEntries fuel (h p).rightChild h
          let h :=
            if secondMinLabel < firstMinLabel then
              h.modify p fun n => { n with leftChild := n.rightChild, rightChild := n.leftChild }
            else h
          match (h p).leftChild, (h p).rightChild with
          | some l, some r =>
              .ok (min firstMinLabel secondMinLabel, h.modify p fun n => { n with
                subtreeTerminals := List.zipWith (· ||| ·) (h l).subtreeTerminals (h r).subtreeTerminals })
          | _, _ => .error .undefined

/-- `orderSubtree` for all roots. -/
def orderSubtrees (terminalToLabel : Ptr → Option Label) (numberOfEntries fuel : ℕ) :
    List Ptr → Nodes → Except Failure Nodes
  | [], h => .ok h
  | root :: roots, h => do
      let (_, h) ← orderSubtree terminalToLabel numberOfEntries fuel (some root) h
      orderSubtrees terminalToLabel numberOfEntries fuel roots h

/-- `sortChildrenAndCollectTerminals`; the largest label of none is undefined. -/
def sortChildrenAndCollectTerminals (σ : Reader) : Except Failure Store :=
  match σ.labels.max? with
  | none => .error .undefined
  | some maxLabel => do
      let h ← orderSubtrees σ.terminalToLabel ((maxLabel + 63) / 64) σ.size σ.roots σ.nodes
      .ok {
        nodes := h
        roots := σ.roots.insertionSort fun a b => h.hasSmallestTerminal a b = true
        labelToTerminal := σ.labelToTerminal
        terminalToLabel := σ.terminalToLabel }

/-- `ReadNewick`, with the number of nodes it creates.  It is undefined when
`2 * numberOfTerminals` leaves the range of `int`, and when the first root has moved
before the roots are sorted. -/
def readNewick (text : List Char) (numberOfTerminals numberOfTrees : ℕ) : Except Failure (Store × ℕ) :=
  if numberOfTerminals = 0 then
    .error (.exception "ForestIO : ReadNewick : number of terminals must be positive")
  else if 2 ^ 31 ≤ 2 * numberOfTerminals then .error .undefined
  else do
    let σ ← Reader.readTrees numberOfTrees { reserved := 2 * numberOfTerminals - 1 } (Newick.lines text)
    if σ.roots.any (· < moved σ.reserved (σ.size - 1)) then .error .undefined
    else do
      let s ← sortChildrenAndCollectTerminals σ
      .ok (s, σ.size)

/-- `ReadNewick` as it is evaluated: a forest is returned only if the order of its
roots did not ask for `__builtin_ctzll(0)`. -/
def evalNewick (text : List Char) (numberOfTerminals numberOfTrees : ℕ) : Except Failure (Store × ℕ) := do
  let (s, size) ← readNewick text numberOfTerminals numberOfTrees
  if s.roots.all fun a => s.roots.all fun b => (s.nodes.evalSmallestTerminal a b).isSome then .ok (s, size)
  else .error .undefined

/-- The loop of `WriteNewick` for one root. -/
def writeTree (s : Store) : ℕ → Ptr → Bool → List Char → Option (List Char)
  | 0, _, _, _ => none
  | fuel + 1, current, true, stream =>
      match (s.nodes current).leftChild with
      | some l => writeTree s fuel l true (stream ++ ['('])
      | none => do
          let label ← s.terminalToLabel current
          writeTree s fuel current false (stream ++ Nat.toDigits 10 label)
  | fuel + 1, current, false, stream =>
      match (s.nodes current).parent with
      | none => some stream
      | some parent =>
          if (s.nodes parent).leftChild = some current then do
            let sibling ← (s.nodes current).sibling
            writeTree s fuel sibling true (stream ++ [','])
          else writeTree s fuel parent false (stream ++ [')'])

/-- `WriteNewick`, from the given root on. -/
def writeTrees (s : Store) (fuel : ℕ) : List Ptr → List Char → Option (List Char)
  | [], stream => some stream
  | root :: roots, stream => do
      let stream ← writeTree s fuel root true stream
      writeTrees s fuel roots (stream ++ [';', '\n'])

/-- `WriteNewick`. -/
def writeNewick (fuel : ℕ) (s : Store) : Option (List Char) := writeTrees s fuel s.roots []

/-- `compareSubtrees`. -/
def compareSubtrees (s t : Store) : ℕ → Ptr → Ptr → Option Bool
  | 0, _, _ => none
  | fuel + 1, p, q =>
      let thisIsTerminal := (s.nodes p).leftChild = none ∧ (s.nodes p).rightChild = none
      let otherIsTerminal := (t.nodes q).leftChild = none ∧ (t.nodes q).rightChild = none
      if ¬(thisIsTerminal ↔ otherIsTerminal) then some false
      else if thisIsTerminal then
        match s.terminalToLabel p, t.terminalToLabel q with
        | some x, some y => some (decide (x = y))
        | _, _ => some false
      else do
        let l ← (s.nodes p).leftChild
        let l' ← (t.nodes q).leftChild
        if ← compareSubtrees s t fuel l l' then
          let r ← (s.nodes p).rightChild
          let r' ← (t.nodes q).rightChild
          compareSubtrees s t fuel r r'
        else some false

/-- The loop of `operator==` over the roots. -/
def compareRoots (s t : Store) (fuel : ℕ) : List Ptr → List Ptr → Option Bool
  | p :: ps, q :: qs => do
      if ← compareSubtrees s t fuel p q then compareRoots s t fuel ps qs else some false
  | _, _ => some true

/-- `operator==`. -/
def equal (fuel : ℕ) (s t : Store) : Option Bool :=
  if s.roots.length ≠ t.roots.length then some false else compareRoots s t fuel s.roots t.roots

end Graph
end Maf
