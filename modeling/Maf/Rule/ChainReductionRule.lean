/-
# Chain reduction

`src/Solver/Rule/ChainReductionRule.cpp`.  `isApplicable` grows a chain from every terminal
that no chain holds yet and that is not a sibling of a terminal in any forest.  A chain that
arrives at the start of another one takes it over.  `apply` shortens the chains of more than
`t + 1` terminals, one after another in every forest.

While a chain grows, the chains of `startToChain` are chains of all forests and share no
terminal (`Search.Inv`): what is added to a chain cannot be the second or a later terminal of a
chain, as it would have two terminals of which it is the uncle, and these would be siblings.
Shortening a chain keeps all others (`Forest.exists_shorten`).

The order in which `TerminalToLabel` and `startToChain` are iterated is a parameter, and the
loop that grows a chain has fuel.
-/

import Maf.Action.ShortenChainAction
import Maf.CommonSubtree
import Maf.Rule.Restore
import Mathlib.Data.List.AList

namespace Maf

open Graph

/-- `ChainReductionRule`; `changes` is the stack, with the number of the forest of each
action. -/
structure ChainReductionRule where
  reducedChains : List (Label × Label)
  isApplied : Bool := false
  changes : List (ℕ × ShortenChainAction) := []

namespace ChainReductionRule

/-- The label of the uncle of the terminal of `current` in one forest, or `some none` when the
chain does not go on there. -/
def uncleLabel (s : Store) (current : Label) : Option (Option Label) := do
  let chainElementNode ← s.labelToTerminal current
  match (s.nodes chainElementNode).parent with
  | none => some none
  | some parent =>
      match (s.nodes parent).sibling with
      | none => some none
      | some uncle => do
          let grandParent ← (s.nodes parent).parent
          if (s.nodes grandParent).parent.isNone then some none else some (s.terminalToLabel uncle)

/-- The loop over the forests that looks for the next element of the chain. -/
def nextElement (current : Label) : List Store → Label → Option (Option Label)
  | [], next => some (some next)
  | s :: forests, next =>
      (uncleLabel s current).bind fun
        | none => some none
        | some label =>
            if next = 0 then nextElement current forests label
            else if next ≠ label then some none
            else nextElement current forests next

/-- The variables of `isApplicable`. -/
structure Search where
  visitedLabels : Finset Label
  startToChain : AList fun _ : Label => List Label

/-- The loop that grows the chain of `label` from its element `current` on. -/
def grow (forests : List Store) (label : Label) : ℕ → Label → Search → Option Search
  | 0, _, _ => none
  | fuel + 1, current, σ =>
      (nextElement current forests 0).bind fun
        | none => some σ
        | some next =>
            (σ.startToChain.lookup label).bind fun chain =>
              match σ.startToChain.lookup next with
              | some tail => some { σ with startToChain := (σ.startToChain.insert label (chain ++ tail)).erase next }
              | none => grow forests label fuel next
                  ⟨insert next σ.visitedLabels, σ.startToChain.insert label (chain ++ [next])⟩

/-- The terminal of the label has a terminal as its sibling. -/
def hasTerminalSibling (label : Label) (s : Store) : Option Bool := do
  let chainStart ← s.labelToTerminal label
  some ((s.nodes chainStart).sibling.bind s.terminalToLabel).isSome

/-- The body of the loop over the labels. -/
def visit (fuel : ℕ) (forests : List Store) (σ : Search) (label : Label) : Option Search :=
  if label ∈ σ.visitedLabels then some σ
  else do
    let startToChain :=
      if label ∈ σ.startToChain then σ.startToChain else σ.startToChain.insert label [label]
    let siblingStart ← forests.mapM (hasTerminalSibling label)
    if siblingStart.any id then some ⟨insert label σ.visitedLabels, startToChain⟩
    else grow forests label fuel label ⟨insert label σ.visitedLabels, startToChain⟩

/-- The last element of a chain that remains, and its last element. -/
def startEnd (lengthReducedChain : ℕ) (chain : List Label) : Option (Label × Label) := do
  let start ← chain[lengthReducedChain - 1]?
  let back ← chain.getLast?
  some (start, back)

/-- **`isApplicable`**: `reducedChains` of the rule, or `none` for a null pointer. -/
def isApplicable (fuel : ℕ) (order : List Label) (iterate : List (List Label) → List (List Label))
    (forests : List Store) : Option (Option (List (Label × Label))) := do
  let lengthReducedChain := forests.length + 1
  let σ ← order.foldlM (visit fuel forests) ⟨∅, ∅⟩
  let chains := (iterate (σ.startToChain.entries.map Sigma.snd)).filter fun chain => lengthReducedChain < chain.length
  let reducedChainsStartEnd ← chains.mapM (startEnd lengthReducedChain)
  some (if reducedChainsStartEnd.isEmpty then none else some reducedChainsStartEnd)

/-- The loops of `apply`; the last change is on top of the stack. -/
def shortenChains (fuel : ℕ) : List (Label × Label) → List (ℕ × ShortenChainAction) → List Store →
    Option (List (ℕ × ShortenChainAction) × List Store)
  | [], changes, forests => some (changes, forests)
  | (lower, upper) :: reducedChains, changes, forests => do
      let done ← forests.mapM (ShortenChainAction.doAction fuel lower upper)
      let new := (done.map Prod.fst).zipIdx.map Prod.swap
      shortenChains fuel reducedChains (new.reverse ++ changes) (done.map Prod.snd)

/-- **`apply`**; `none` is an exception. -/
def apply (fuel : ℕ) (rule : ChainReductionRule) (forests : List Store) : Option (ChainReductionRule × List Store) :=
  if rule.isApplied then none
  else do
    let (changes, forests) ← shortenChains fuel rule.reducedChains rule.changes forests
    some ({ rule with isApplied := true, changes := changes }, forests)

section Chains

variable {width fuel : ℕ} {s : Store} {F : Forest} {x y z : Label}

/-- The height of a label: the size of the subtree at the parent of its terminal. -/
def rank (F : Forest) (x : Label) : ℕ :=
  ((F.labelToTerminal x).bind F.parent).elim 0 fun p => p.subtrees.length

/-- No label has a rank beyond the nodes of the forest. -/
theorem rank_le (hF : F.Distinct) (x : Label) : rank F x ≤ F.subtrees.length := by
  unfold rank
  cases h : (F.labelToTerminal x).bind F.parent with
  | none => exact Nat.zero_le _
  | some p =>
      obtain ⟨n, -, hp⟩ := Option.bind_eq_some_iff.1 h
      exact Forest.length_subtrees_le ((Forest.parent_eq_some_iff hF).1 hp).1

/-- **What a link says of the forest**: the parent `p` of the first terminal is the sibling of
the second one. -/
theorem exists_of_link (hF : Held width fuel s F) (h : s.Link x y) :
    ∃ (n u g : Ptr) (m k : Finset Label) (p : Tree), s.labelToTerminal x = some n ∧ s.terminalToLabel n = some x ∧
      s.labelToTerminal y = some u ∧ s.terminalToLabel u = some y ∧ Tree.leaf n x m ∈ F.subtrees ∧
      Tree.leaf u y k ∈ F.subtrees ∧ Tree.HasChild (.leaf n x m) p ∧ p ∈ F.subtrees ∧
      (Tree.node g p (.leaf u y k) ∈ F.subtrees ∨ Tree.node g (.leaf u y k) p ∈ F.subtrees) ∧
      (s.nodes g).parent.isSome = true := by
  obtain ⟨n, q, g, u, hn, hnx, hq, hg, hgg, hu, hy⟩ := h
  obtain ⟨m, hleaf, -⟩ := hF.indexed.exists_terminal hnx
  obtain ⟨k, huleaf, hyu⟩ := hF.indexed.exists_terminal hy
  obtain ⟨p, hpF, hp, rfl⟩ : ∃ p ∈ F.subtrees, Tree.HasChild (.leaf n x m) p ∧ p.ptr = q := by
    obtain ⟨o, hnode | hnode, -⟩ := hF.wellFormed.exists_parent (c := Tree.leaf n x m) hleaf hq
    · exact ⟨_, hnode, Or.inl rfl, rfl⟩
    · exact ⟨_, hnode, Or.inr rfl, rfl⟩
  obtain ⟨o, hnode, hsib⟩ := hF.wellFormed.exists_parent hpF hg
  have hoF : o ∈ F.subtrees := by
    rcases hnode with h | h
    · exact (Forest.mem_subtrees_children h).2
    · exact (Forest.mem_subtrees_children h).1
  obtain rfl : o = Tree.leaf u y k :=
    Forest.eq_of_ptr_eq hF.wellFormed.valid.nodup hoF huleaf (Option.some.inj (hsib.symm.trans hu))
  exact ⟨n, u, g, m, k, p, hn, hnx, hyu, hy, hleaf, huleaf, hp, hpF, hnode, hgg⟩

/-- **A chain climbs.** -/
theorem rank_lt (hF : Held width fuel s F) (h : s.Link x y) : rank F x < rank F y := by
  obtain ⟨n, u, g, m, k, p, -, -, -, -, hn, hu, hp, hpF, hnode, -⟩ := exists_of_link hF h
  have hv := hF.wellFormed.valid
  have hx : rank F x = p.subtrees.length := by
    rw [rank, Forest.labelToTerminal_leaf hv hn, Option.bind_some, (Forest.parent_eq_some_iff hv.distinct).2 ⟨hpF, hp⟩]
    rfl
  obtain ⟨G, hGu, hGp⟩ : ∃ G, F.parent (.leaf u y k) = some G ∧ F.parent p = some G := by
    rcases hnode with h | h
    · exact ⟨_, (Forest.parent_eq_some_iff hv.distinct).2 ⟨h, Or.inr rfl⟩,
        (Forest.parent_eq_some_iff hv.distinct).2 ⟨h, Or.inl rfl⟩⟩
    · exact ⟨_, (Forest.parent_eq_some_iff hv.distinct).2 ⟨h, Or.inl rfl⟩,
        (Forest.parent_eq_some_iff hv.distinct).2 ⟨h, Or.inr rfl⟩⟩
  have hy : rank F y = G.subtrees.length := by
    rw [rank, Forest.labelToTerminal_leaf hv hu, Option.bind_some, hGu]
    rfl
  rw [hx, hy]
  exact Forest.length_subtrees_lt_parent hv.distinct hGp

/-- The sibling of a terminal that was reached is no terminal. -/
theorem hasTerminalSibling_of_link (hF : Held width fuel s F) (h : s.Link x y) :
    hasTerminalSibling y s = some false := by
  obtain ⟨n, u, g, m, k, p, -, -, hu, -, -, -, hp, hpF, hnode, -⟩ := exists_of_link hF h
  have hsib : (s.nodes u).sibling = some p.ptr :=
    (hF.wellFormed.children (c := Tree.leaf u y k) (o := p) hnode.symm).2
  have hno : s.terminalToLabel p.ptr = none := by
    rw [Option.eq_none_iff_forall_ne_some]
    intro l hl
    obtain ⟨m', hm', -⟩ := hF.indexed.exists_terminal hl
    rw [← Forest.eq_of_ptr_eq hF.wellFormed.valid.nodup hm' hpF rfl] at hp
    exact hp
  rw [hasTerminalSibling, hu, Option.bind_eq_bind, Option.bind_some, hsib, Option.bind_some, hno]
  rfl

/-- **Two labels before the same one are siblings.** -/
theorem hasTerminalSibling_of_links (hF : Held width fuel s F) (hx : s.Link x y) (hz : s.Link z y) (hne : z ≠ x) :
    hasTerminalSibling x s = some true := by
  have hv := hF.wellFormed.valid
  obtain ⟨n, u, g, m, k, p, hxn, -, -, hyu, hn, hu, hp, hpF, hnode, -⟩ := exists_of_link hF hx
  obtain ⟨n', u', g', m', k', p', -, hzn, -, hyu', hn', hu', hp', hpF', hnode', -⟩ := exists_of_link hF hz
  have hleaf : Tree.leaf u y k = Tree.leaf u' y k' :=
    Option.some.inj ((Forest.labelToTerminal_leaf hv hu).symm.trans (Forest.labelToTerminal_leaf hv hu'))
  cases hleaf
  -- both are children of the sibling of the terminal of `y`
  have hpp : p = p' := by
    refine Option.some.inj ((?_ : F.sibling (.leaf u y k) = some p).symm.trans ?_)
    · exact (Forest.sibling_eq_some_iff hv.distinct).2 ⟨g, hnode.symm⟩
    · exact (Forest.sibling_eq_some_iff hv.distinct).2 ⟨g', hnode'.symm⟩
  subst hpp
  have hsib : (s.nodes n).sibling = some n' := by
    obtain ⟨q, l, r, rfl, hl⟩ := Tree.hasChild_iff.1 hp
    rcases hl with rfl | rfl
    · rcases hp' with he | rfl
      · cases he
        exact absurd rfl hne
      · exact (hF.wellFormed.children (c := Tree.leaf n x m) (o := Tree.leaf n' z m') (Or.inl hpF)).2
    · rcases hp' with rfl | he
      · exact (hF.wellFormed.children (c := Tree.leaf n x m) (o := Tree.leaf n' z m') (Or.inr hpF)).2
      · cases he
        exact absurd rfl hne
  rw [hasTerminalSibling, hxn, Option.bind_eq_bind, Option.bind_some, hsib, Option.bind_some, hzn]
  rfl

/-- The label of a terminal. -/
def IsTerminal (s : Store) (x : Label) : Prop := ∃ n, s.labelToTerminal x = some n ∧ s.terminalToLabel n = some x

/-- A link leads to a terminal. -/
theorem isTerminal_of_link (hF : Held width fuel s F) (h : s.Link x y) : IsTerminal s y := by
  obtain ⟨-, u, -, -, -, -, -, -, hu, hy, -⟩ := exists_of_link hF h
  exact ⟨u, hu, hy⟩

/-- The sibling of a terminal can be looked at. -/
theorem exists_hasTerminalSibling (h : IsTerminal s x) : ∃ b, hasTerminalSibling x s = some b := by
  obtain ⟨n, hn, -⟩ := h
  exact ⟨_, by rw [hasTerminalSibling, hn]; rfl⟩

/-- **The uncle in one forest.** -/
theorem uncleLabel_spec (hF : Held width fuel s F) (hx : IsTerminal s x) :
    ∃ r, uncleLabel s x = some r ∧ ∀ y, r = some y → s.Link x y := by
  obtain ⟨n, hn, hnx⟩ := hx
  obtain ⟨m, hleaf, -⟩ := hF.indexed.exists_terminal hnx
  unfold uncleLabel
  rw [hn, Option.bind_eq_bind, Option.bind_some]
  cases hp : (s.nodes n).parent with
  | none => exact ⟨none, rfl, fun y hy => by cases hy⟩
  | some p =>
      cases hu : (s.nodes p).sibling with
      | none => exact ⟨none, by simp only [hu], fun y hy => by cases hy⟩
      | some u =>
          -- a node with a sibling has a parent
          obtain ⟨g, hg⟩ : ∃ g, (s.nodes p).parent = some g := by
            obtain ⟨o, hnode, -⟩ := hF.wellFormed.exists_parent (c := Tree.leaf n x m) hleaf hp
            obtain ⟨c, hc, rfl⟩ : ∃ c ∈ F.subtrees, c.ptr = p := by
              rcases hnode with h | h
              · exact ⟨_, h, rfl⟩
              · exact ⟨_, h, rfl⟩
            rcases hF.parent hc with ⟨hroot, -⟩ | ⟨-, g, -, -, -, -, hg⟩
            · rw [(hF.wellFormed.stored.trees c hroot).root] at hu
              cases hu
            · exact ⟨g, hg⟩
          simp only [hu, hg, Option.bind_some]
          by_cases hgg : (s.nodes g).parent.isNone = true
          · exact ⟨none, by rw [if_pos hgg], fun y hy => by cases hy⟩
          · refine ⟨s.terminalToLabel u, by rw [if_neg hgg], fun y hy => ⟨n, p, g, u, hn, hnx, hp, hg, ?_, hu, hy⟩⟩
            rwa [← Option.not_isNone, Bool.not_eq_true', ← Bool.not_eq_true]

variable {forests : List Store} {Fs : List Forest}

/-- The loop over the forests, from the label `next` on. -/
theorem nextElement_loop (hFs : List.Forall₂ (Held width fuel) forests Fs) (hx : ∀ s ∈ forests, IsTerminal s x)
    (next : Label) : ∃ r, nextElement x forests next = some r ∧
      ∀ y, r = some y → (next ≠ 0 → y = next) ∧ ∀ s ∈ forests, s.Link x y := by
  induction hFs generalizing next with
  | nil => exact ⟨some next, rfl, fun y hy => ⟨fun _ => (Option.some.inj hy).symm, fun s hs => by cases hs⟩⟩
  | @cons s F forests Fs hF _ ih =>
      rw [List.forall_mem_cons] at hx
      obtain ⟨r, hr, hlink⟩ := uncleLabel_spec hF hx.1
      rw [nextElement, hr, Option.bind_some]
      cases r with
      | none => exact ⟨none, rfl, fun y hy => by cases hy⟩
      | some label =>
          have hl := hlink label rfl
          have hpos : label ≠ 0 := by
            obtain ⟨-, u, -, -, k, -, -, -, -, -, -, hu, -⟩ := exists_of_link hF hl
            exact (hF.wellFormed.valid.of_mem_subtrees hu).pos.ne'
          by_cases h0 : next = 0
          · obtain ⟨r, hr, hall⟩ := ih hx.2 label
            refine ⟨r, by simp only [h0, if_true, hr], fun y hy => ⟨fun h => absurd h0 h, ?_⟩⟩
            obtain ⟨hy, hlinks⟩ := hall y hy
            obtain rfl := hy hpos
            exact List.forall_mem_cons.2 ⟨hl, hlinks⟩
          · by_cases hne : next = label
            · subst hne
              obtain ⟨r, hr, hall⟩ := ih hx.2 next
              refine ⟨r, by simp only [if_neg h0, ne_eq, not_true_eq_false, if_false, hr], fun y hy => ?_⟩
              obtain ⟨hy, hlinks⟩ := hall y hy
              obtain rfl := hy h0
              exact ⟨fun _ => rfl, List.forall_mem_cons.2 ⟨hl, hlinks⟩⟩
            · exact ⟨none, by simp only [h0, if_false, ne_eq, hne, not_false_eq_true, if_true], fun y hy => by cases hy⟩

/-- **The next element of a chain** follows in all forests. -/
theorem nextElement_spec (hFs : List.Forall₂ (Held width fuel) forests Fs) (hx : ∀ s ∈ forests, IsTerminal s x) :
    ∃ r, nextElement x forests 0 = some r ∧ ∀ y, r = some y → ∀ s ∈ forests, s.Link x y := by
  obtain ⟨r, hr, h⟩ := nextElement_loop hFs hx 0
  exact ⟨r, hr, fun y hy => (h y hy).2⟩

end Chains

section Invariant

variable {width fuel : ℕ} {forests : List Store} {Fs : List Forest} {s₀ : Store} {F₀ : Forest} {σ : Search}
  {label current x y : Label} {chain : List Label}

/-- The label follows in all forests. -/
def Links (forests : List Store) (x y : Label) : Prop := ∀ s ∈ forests, s.Link x y

/-- **The invariant of the search.** -/
structure Search.Inv (forests : List Store) (σ : Search) : Prop where
  head : ∀ k c, σ.startToChain.lookup k = some c → c.head? = some k
  chain : ∀ k c, σ.startToChain.lookup k = some c → c.IsChain (Links forests)
  visited : ∀ k c, σ.startToChain.lookup k = some c → ∀ x ∈ c, x ∈ σ.visitedLabels
  disjoint : ∀ k c k' c' x, σ.startToChain.lookup k = some c → σ.startToChain.lookup k' = some c' → x ∈ c → x ∈ c' →
    k = k'

/-- At the start no label was visited. -/
theorem Search.Inv.empty (forests : List Store) : Search.Inv forests ⟨∅, ∅⟩ where
  head _ _ h := by cases h
  chain _ _ h := by cases h
  visited _ _ h := by cases h
  disjoint _ _ _ _ _ h := by cases h

/-- The labels of a chain climb. -/
theorem pairwise_rank (hF : Held width fuel s₀ F₀) (hs : s₀ ∈ forests) (hc : chain.IsChain (Links forests)) :
    chain.Pairwise fun x y => rank F₀ x < rank F₀ y := by
  have hmap : (chain.map (rank F₀)).IsChain (· < ·) :=
    (List.isChain_map _).2 (hc.imp fun x y h => rank_lt hF (h s₀ hs))
  exact List.pairwise_map.1 hmap.pairwise

/-- A label of a chain other than its start follows another one. -/
theorem exists_before {c : List Label} {k : Label} {R : Label → Label → Prop} (hc : c.IsChain R) (hk : c.head? = some k)
    (hx : x ∈ c) (hne : x ≠ k) : ∃ z ∈ c, R z x := by
  induction c generalizing k with
  | nil => cases hx
  | cons a c ih =>
      obtain rfl := Option.some.inj hk
      have hx := (List.mem_cons.1 hx).resolve_left hne
      cases c with
      | nil => cases hx
      | cons b c =>
          obtain ⟨hab, hc⟩ := List.isChain_cons_cons.1 hc
          by_cases hxb : x = b
          · exact ⟨a, List.mem_cons_self .., hxb ▸ hab⟩
          · obtain ⟨z, hz, hzx⟩ := ih hc rfl hx hxb
            exact ⟨z, List.mem_cons_of_mem _ hz, hzx⟩

/-- **What is added to a chain is new or the start of another one.** -/
theorem Search.Inv.notMem (hσ : σ.Inv forests) (hF : Held width fuel s₀ F₀) (hs : s₀ ∈ forests)
    (hlabel : σ.startToChain.lookup label = some chain) (hlast : chain.getLast? = some current)
    (hsib : hasTerminalSibling current s₀ = some false) (hxy : Links forests current y) {k : Label} {c : List Label}
    (hc : σ.startToChain.lookup k = some c) (hy : y ∈ c) : y = k ∧ k ≠ label := by
  have hlt := rank_lt hF (hxy s₀ hs)
  have hcur : current ∈ chain := List.mem_of_getLast? hlast
  -- the chain itself lies lower
  have hown : y ∉ chain := fun hmem => by
    obtain ⟨pre, rfl⟩ := List.getLast?_eq_some_iff.1 hlast
    have hp := pairwise_rank hF hs (hσ.chain _ _ hlabel)
    rcases List.mem_append.1 hmem with h | h
    · have := (List.pairwise_append.1 hp).2.2 y h current (by simp)
      omega
    · rw [List.mem_singleton.1 h] at hlt
      exact absurd hlt (lt_irrefl _)
  have hk : k ≠ label := by
    rintro rfl
    obtain rfl := Option.some.inj (hlabel.symm.trans hc)
    exact hown hy
  refine ⟨?_, hk⟩
  by_contra hne
  -- it would follow two labels
  obtain ⟨z, hz, hzy⟩ := exists_before (hσ.chain k c hc) (hσ.head k c hc) hy hne
  have hzx : z ≠ current := fun he => hk (hσ.disjoint k c label chain z hc hlabel hz (he ▸ hcur))
  have := hasTerminalSibling_of_links hF (hxy s₀ hs) (hzy s₀ hs) hzx
  rw [hsib] at this
  cases this

/-- **A chain takes another one over.** -/
theorem Search.Inv.splice (hσ : σ.Inv forests) (hlabel : σ.startToChain.lookup label = some chain)
    (hlast : chain.getLast? = some current) (hxy : Links forests current y) {tail : List Label}
    (hy : σ.startToChain.lookup y = some tail) (hne : y ≠ label) :
    Search.Inv forests { σ with startToChain := (σ.startToChain.insert label (chain ++ tail)).erase y } := by
  have get : ∀ k c, ((σ.startToChain.insert label (chain ++ tail)).erase y).lookup k = some c →
      k ≠ y ∧ (k = label ∧ c = chain ++ tail ∨ k ≠ label ∧ σ.startToChain.lookup k = some c) := by
    intro k c h
    have hky : k ≠ y := by
      rintro rfl
      rw [AList.lookup_erase] at h
      cases h
    rw [AList.lookup_erase_ne hky] at h
    by_cases hk : k = label
    · subst hk
      rw [AList.lookup_insert] at h
      exact ⟨hky, Or.inl ⟨rfl, (Option.some.inj h).symm⟩⟩
    · rw [AList.lookup_insert_ne hk] at h
      exact ⟨hky, Or.inr ⟨hk, h⟩⟩
  have hmem : ∀ {k c x}, k ≠ y → k ≠ label → σ.startToChain.lookup k = some c → x ∈ c → x ∉ chain ++ tail :=
    fun hky hk hc hx hx' => by
      rcases List.mem_append.1 hx' with hx' | hx'
      · exact hk (hσ.disjoint _ _ _ _ _ hc hlabel hx hx')
      · exact hky (hσ.disjoint _ _ _ _ _ hc hy hx hx')
  refine ⟨fun k c h => ?_, fun k c h => ?_, fun k c h x hx => ?_, fun k c k' c' x h h' hx hx' => ?_⟩
  · obtain ⟨-, ⟨rfl, rfl⟩ | ⟨-, h⟩⟩ := get k c h
    · rw [List.head?_append, hσ.head k chain hlabel, Option.some_or]
    · exact hσ.head k c h
  · obtain ⟨-, ⟨rfl, rfl⟩ | ⟨-, h⟩⟩ := get k c h
    · refine List.isChain_append.2 ⟨hσ.chain k chain hlabel, hσ.chain y tail hy, fun a ha b hb => ?_⟩
      obtain rfl := Option.some.inj (hlast.symm.trans ha)
      obtain rfl := Option.some.inj ((hσ.head y tail hy).symm.trans hb)
      exact hxy
    · exact hσ.chain k c h
  · obtain ⟨-, ⟨rfl, rfl⟩ | ⟨-, h⟩⟩ := get k c h
    · rcases List.mem_append.1 hx with hx | hx
      · exact hσ.visited k chain hlabel x hx
      · exact hσ.visited y tail hy x hx
    · exact hσ.visited k c h x hx
  · obtain ⟨hky, ⟨rfl, rfl⟩ | ⟨hk, hc⟩⟩ := get k c h
    · obtain ⟨hky', ⟨rfl, rfl⟩ | ⟨hk', hc'⟩⟩ := get k' c' h'
      · rfl
      · exact absurd hx (hmem hky' hk' hc' hx')
    · obtain ⟨hky', ⟨rfl, rfl⟩ | ⟨hk', hc'⟩⟩ := get k' c' h'
      · exact absurd hx' (hmem hky hk hc hx)
      · exact hσ.disjoint k c k' c' x hc hc' hx hx'

/-- **A chain with a new list of labels**, all of them in no other chain. -/
theorem Search.Inv.write (hσ : σ.Inv forests) (hhead : chain.head? = some label)
    (hchain : chain.IsChain (Links forests))
    (hnew : ∀ k c, σ.startToChain.lookup k = some c → k ≠ label → ∀ x ∈ c, x ∉ chain) {visited : Finset Label}
    (hsub : σ.visitedLabels ⊆ visited) (hvisited : ∀ x ∈ chain, x ∈ visited) :
    Search.Inv forests ⟨visited, σ.startToChain.insert label chain⟩ := by
  have get : ∀ k c, (σ.startToChain.insert label chain).lookup k = some c →
      k = label ∧ c = chain ∨ k ≠ label ∧ σ.startToChain.lookup k = some c := by
    intro k c h
    by_cases hk : k = label
    · subst hk
      rw [AList.lookup_insert] at h
      exact Or.inl ⟨rfl, (Option.some.inj h).symm⟩
    · rw [AList.lookup_insert_ne hk] at h
      exact Or.inr ⟨hk, h⟩
  refine ⟨fun k c h => ?_, fun k c h => ?_, fun k c h x hx => ?_, fun k c k' c' x h h' hx hx' => ?_⟩
  · obtain ⟨rfl, rfl⟩ | ⟨-, h⟩ := get k c h
    · exact hhead
    · exact hσ.head k c h
  · obtain ⟨rfl, rfl⟩ | ⟨-, h⟩ := get k c h
    · exact hchain
    · exact hσ.chain k c h
  · obtain ⟨rfl, rfl⟩ | ⟨-, h⟩ := get k c h
    · exact hvisited x hx
    · exact hsub (hσ.visited k c h x hx)
  · obtain ⟨rfl, rfl⟩ | ⟨hk, hc⟩ := get k c h
    · obtain ⟨rfl, rfl⟩ | ⟨hk', hc'⟩ := get k' c' h'
      · rfl
      · exact absurd hx (hnew k' c' hc' hk' x hx')
    · obtain ⟨rfl, rfl⟩ | ⟨hk', hc'⟩ := get k' c' h'
      · exact absurd hx' (hnew k c hc hk x hx)
      · exact hσ.disjoint k c k' c' x hc hc' hx hx'

/-- **The loop that grows a chain** ends and keeps the invariant. -/
theorem grow_spec (hFs : List.Forall₂ (Held width fuel) forests Fs) (hF : Held width fuel s₀ F₀) (hs : s₀ ∈ forests)
    (steps : ℕ) (hσ : σ.Inv forests) (hlabel : σ.startToChain.lookup label = some chain)
    (hlast : chain.getLast? = some current) (hterm : ∀ s ∈ forests, IsTerminal s current)
    (hsib : hasTerminalSibling current s₀ = some false) (hsteps : F₀.subtrees.length < steps + rank F₀ current) :
    ∃ σ', grow forests label steps current σ = some σ' ∧ σ'.Inv forests := by
  have hd := hF.wellFormed.valid.distinct
  induction steps generalizing current σ chain with
  | zero =>
      have := rank_le hd current
      omega
  | succ steps ih =>
      obtain ⟨r, hr, hlinks⟩ := nextElement_spec hFs hterm
      rw [grow, hr, Option.bind_some]
      cases r with
      | none => exact ⟨σ, rfl, hσ⟩
      | some y =>
          have hxy : Links forests current y := hlinks y rfl
          simp only [hlabel, Option.bind_some]
          cases hy : σ.startToChain.lookup y with
          | some tail =>
              have hmem : y ∈ tail := List.mem_of_head? (hσ.head y tail hy)
              exact ⟨_, rfl, hσ.splice hlabel hlast hxy hy (hσ.notMem hF hs hlabel hlast hsib hxy hy hmem).2⟩
          | none =>
              have hnew : ∀ k c, σ.startToChain.lookup k = some c → y ∉ c := fun k c hc hmem => by
                obtain ⟨rfl, -⟩ := hσ.notMem hF hs hlabel hlast hsib hxy hc hmem
                rw [hy] at hc
                cases hc
              have hlt := rank_lt hF (hxy s₀ hs)
              refine ih ?_ (AList.lookup_insert _) List.getLast?_concat (fun s hs => ?_)
                (hasTerminalSibling_of_link hF (hxy s₀ hs)) (by omega)
              · refine hσ.write ?_ ?_ (fun k c hc hk x hx hx' => ?_) (Finset.subset_insert _ _) fun x hx => ?_
                · rw [List.head?_append, hσ.head label chain hlabel, Option.some_or]
                · refine List.isChain_append.2 ⟨hσ.chain label chain hlabel, List.isChain_singleton y,
                    fun a ha b hb => ?_⟩
                  obtain rfl := Option.some.inj (hlast.symm.trans ha)
                  obtain rfl := Option.some.inj hb
                  exact hxy
                · rcases List.mem_append.1 hx' with hx' | hx'
                  · exact hk (hσ.disjoint k c label chain x hc hlabel hx hx')
                  · exact hnew k c hc (List.mem_singleton.1 hx' ▸ hx)
                · rcases List.mem_append.1 hx with hx | hx
                  · exact Finset.mem_insert_of_mem (hσ.visited label chain hlabel x hx)
                  · exact List.mem_singleton.1 hx ▸ Finset.mem_insert_self ..
              · obtain ⟨F, -, hF⟩ := (Scan.forall₂_mem hFs).1 s hs
                exact isTerminal_of_link hF (hxy s hs)

/-- **One label** keeps the invariant. -/
theorem visit_spec (hFs : List.Forall₂ (Held width fuel) forests Fs) (hF : Held width fuel s₀ F₀) (hs : s₀ ∈ forests)
    (hσ : σ.Inv forests) (hterm : ∀ s ∈ forests, IsTerminal s label) {steps : ℕ} (hsteps : F₀.subtrees.length < steps) :
    ∃ σ', visit steps forests σ label = some σ' ∧ σ'.Inv forests := by
  unfold visit
  by_cases hv : label ∈ σ.visitedLabels
  · exact ⟨σ, if_pos hv, hσ⟩
  have hkey : ∀ k c, σ.startToChain.lookup k = some c → label ∉ c := fun k c hc hx => hv (hσ.visited k c hc label hx)
  have hnone : label ∉ σ.startToChain := fun h => by
    obtain ⟨c, hc⟩ := Option.isSome_iff_exists.1 (AList.lookup_isSome.2 h)
    exact hkey label c hc (List.mem_of_head? (hσ.head label c hc))
  obtain ⟨bs, hbs⟩ := Scan.exists_mapM fun s hs => exists_hasTerminalSibling (hterm s hs)
  have hnew : Search.Inv forests ⟨insert label σ.visitedLabels, σ.startToChain.insert label [label]⟩ :=
    hσ.write rfl (List.isChain_singleton label) (fun k c hc _ x hx hx' => hkey k c hc (List.mem_singleton.1 hx' ▸ hx))
      (Finset.subset_insert _ _) fun x hx => List.mem_singleton.1 hx ▸ Finset.mem_insert_self ..
  rw [if_neg hv, hbs]
  simp only [if_neg hnone, Option.bind_eq_bind, Option.bind_some]
  by_cases hany : bs.any id = true
  · exact ⟨_, if_pos hany, hnew⟩
  · rw [if_neg hany]
    obtain ⟨b, hb, hsib⟩ := (Scan.forall₂_mem (Scan.mapM_eq_some_iff.1 hbs)).1 s₀ hs
    have hfalse : b = false := by
      rw [List.any_eq_true] at hany
      rcases Bool.eq_false_or_eq_true b with h | h
      · exact (hany ⟨b, hb, h⟩).elim
      · exact h
    exact grow_spec hFs hF hs steps hnew (AList.lookup_insert _) rfl hterm (hfalse ▸ hsib) (by omega)

/-- **The loop over the labels.** -/
theorem foldlM_visit (hFs : List.Forall₂ (Held width fuel) forests Fs) (hF : Held width fuel s₀ F₀) (hs : s₀ ∈ forests)
    {order : List Label} (horder : ∀ x ∈ order, ∀ s ∈ forests, IsTerminal s x) {steps : ℕ}
    (hsteps : F₀.subtrees.length < steps) (hσ : σ.Inv forests) :
    ∃ σ', order.foldlM (visit steps forests) σ = some σ' ∧ σ'.Inv forests := by
  induction order generalizing σ with
  | nil => exact ⟨σ, rfl, hσ⟩
  | cons x order ih =>
      rw [List.forall_mem_cons] at horder
      obtain ⟨σ₁, h₁, hσ₁⟩ := visit_spec hFs hF hs hσ horder.1 hsteps
      obtain ⟨σ', h', hσ'⟩ := ih horder.2 hσ₁
      exact ⟨σ', by rw [List.foldlM_cons, h₁, Option.bind_eq_bind, Option.bind_some, h'], hσ'⟩

/-- The chains of the map share no terminal. -/
theorem Search.Inv.pairwise (hσ : σ.Inv forests) : (σ.startToChain.entries.map Sigma.snd).Pairwise List.Disjoint := by
  rw [List.pairwise_map]
  refine (List.nodupKeys_iff_pairwise.1 σ.startToChain.nodupKeys).imp_of_mem fun {a b} ha hb hne x hx hx' => hne ?_
  exact hσ.disjoint a.1 a.2 b.1 b.2 x (AList.mem_lookup_iff.2 ha) (AList.mem_lookup_iff.2 hb) hx hx'

end Invariant

section Result

variable {width fuel : ℕ} {forests : List Store} {Fs : List Forest} {t : ℕ} {x y : Label} {chain : List Label}
  {s : Store} {F : Forest}

/-- The terminal of `y` is the sibling of the parent of the one of `x`. -/
def Follows (F : Forest) (x y : Label) : Prop :=
  ∃ p m q k parent, Tree.leaf p x m ∈ F.subtrees ∧ Tree.leaf q y k ∈ F.subtrees ∧
    F.parent (.leaf p x m) = some parent ∧ F.sibling parent = some (.leaf q y k)

/-- The parent of the terminal of `x` is not a root. -/
def BelowRoot (F : Forest) (x : Label) : Prop :=
  ∃ p m parent, Tree.leaf p x m ∈ F.subtrees ∧ F.parent (.leaf p x m) = some parent ∧ (F.parent parent).isSome

/-- **A common chain** of the forests. -/
structure IsCommonChain (Fs : List Forest) (chain : List Label) : Prop where
  nodup : chain.Nodup
  follows : ∀ F ∈ Fs, chain.IsChain (Follows F)
  belowRoot : ∀ F ∈ Fs, ∀ x, chain.getLast? = some x → BelowRoot F x

/-- The pair that `isApplicable` reports for a chain. -/
def Reports (t : ℕ) (chain : List Label) (ends : Label × Label) : Prop :=
  t + 1 < chain.length ∧ chain[t]? = some ends.1 ∧ chain.getLast? = some ends.2

/-- The forests of an instance in the memory: they have the same terminals. -/
structure IsInstance (width fuel : ℕ) (forests : List Store) (Fs : List Forest) : Prop where
  held : List.Forall₂ (Held width fuel) forests Fs
  length_lt : ∀ F ∈ Fs, F.ptrs.length < fuel
  same : ∀ F ∈ Fs, ∀ G ∈ Fs, F.SameTerminals G

/-- A link is a step of a chain. -/
theorem follows_of_link (hF : Held width fuel s F) (h : s.Link x y) : Follows F x y ∧ BelowRoot F y := by
  obtain ⟨n, u, g, m, k, p, -, -, -, -, hn, hu, hp, hpF, hnode, hgg⟩ := exists_of_link hF h
  have hd := hF.wellFormed.valid.distinct
  obtain ⟨G, hGF, hG, hGu⟩ : ∃ G ∈ F.subtrees, G.ptr = g ∧ F.parent (.leaf u y k) = some G := by
    rcases hnode with h | h
    · exact ⟨_, h, rfl, (Forest.parent_eq_some_iff hd).2 ⟨h, Or.inr rfl⟩⟩
    · exact ⟨_, h, rfl, (Forest.parent_eq_some_iff hd).2 ⟨h, Or.inl rfl⟩⟩
  refine ⟨⟨n, m, u, k, p, hn, hu, (Forest.parent_eq_some_iff hd).2 ⟨hpF, hp⟩,
    (Forest.sibling_eq_some_iff hd).2 ⟨g, hnode⟩⟩, u, k, G, hu, hGu, ?_⟩
  rcases hF.parent hGF with ⟨-, hroot⟩ | ⟨-, q, l, r, hq, hc, -⟩
  · rw [← hG, hroot] at hgg
    cases hgg
  · exact Option.isSome_iff_exists.2 ⟨_, (Forest.parent_eq_some_iff hd).2 ⟨hq, hc.imp Eq.symm Eq.symm⟩⟩

/-- **`isApplicable`** ends and reports common chains that share no terminal. -/
theorem isApplicable_spec (hI : IsInstance width fuel forests Fs) {s₀ : Store} (h₀ : forests.head? = some s₀)
    {order : List Label} (horder : ∀ x, x ∈ order ↔ ∃ p, s₀.terminalToLabel p = some x)
    {iterate : List (List Label) → List (List Label)} (hiterate : ∀ chains, (iterate chains).Perm chains) :
    ∃ result, isApplicable fuel order iterate forests = some result ∧
      ∀ pairs, result = some pairs → ∃ chains, List.Forall₂ (Reports forests.length) chains pairs ∧
        (∀ chain ∈ chains, chain.IsChain (Links forests)) ∧ chains.Pairwise List.Disjoint := by
  have hs₀ := List.mem_of_head? h₀
  obtain ⟨F₀, hF₀, h₀F⟩ := (Scan.forall₂_mem hI.held).1 s₀ hs₀
  have hterm : ∀ x ∈ order, ∀ s ∈ forests, IsTerminal s x := fun x hx s hs => by
    obtain ⟨p, hp⟩ := (horder x).1 hx
    obtain ⟨m, hm, -⟩ := h₀F.indexed.exists_terminal hp
    obtain ⟨F, hF, hsF⟩ := (Scan.forall₂_mem hI.held).1 s hs
    obtain ⟨q, hq⟩ := (hI.same F₀ hF₀ F hF x m).1 ⟨p, hm⟩
    exact ⟨q, (hsF.indexed.labelToTerminal q x).2 ⟨x, m, hq, Finset.mem_insert_self ..⟩,
      (hsF.indexed.terminalToLabel q x).2 ⟨m, hq⟩⟩
  have hlen : F₀.subtrees.length < fuel := by
    have := hI.length_lt F₀ hF₀
    rwa [← Forest.map_ptr_subtrees, List.length_map] at this
  obtain ⟨σ, hσ, hinv⟩ := foldlM_visit hI.held h₀F hs₀ hterm hlen (Search.Inv.empty forests)
  -- the chains that are long enough
  set chains := (iterate (σ.startToChain.entries.map Sigma.snd)).filter fun chain => forests.length + 1 < chain.length
    with hchains
  have hlong : ∀ c ∈ chains, forests.length + 1 < c.length ∧ c.IsChain (Links forests) := fun c hc => by
    obtain ⟨hc, hlen⟩ := List.mem_filter.1 hc
    obtain ⟨⟨k, c⟩, he, rfl⟩ := List.mem_map.1 ((hiterate _).mem_iff.1 hc)
    exact ⟨of_decide_eq_true hlen, hinv.chain k c (AList.mem_lookup_iff.2 he)⟩
  have hends : ∀ c ∈ chains, ∃ ends, startEnd (forests.length + 1) c = some ends := fun chain hc => by
    have hlt := (hlong chain hc).1
    have hne : chain ≠ [] := fun h => by rw [h] at hlt; exact absurd hlt (by simp)
    refine ⟨(chain[forests.length], chain.getLast hne), ?_⟩
    rw [startEnd, Nat.add_sub_cancel, List.getElem?_eq_getElem (by omega), List.getLast?_eq_some_getLast hne]
    rfl
  obtain ⟨pairs, hpairs⟩ := Scan.exists_mapM hends
  refine ⟨_, by rw [isApplicable, Option.bind_eq_bind, hσ, Option.bind_some]; simp only [← hchains, hpairs]; rfl,
    fun pairs' h => ⟨chains, ?_, fun c hc => (hlong c hc).2, ?_⟩⟩
  · split_ifs at h with hemp
    obtain rfl := Option.some.inj h
    have hall := (List.forall₂_and_left chains pairs).2
      ⟨fun c hc => (hlong c hc).1, Scan.mapM_eq_some_iff.1 hpairs⟩
    refine hall.imp fun chain ends ⟨hlen, hc⟩ => ⟨hlen, ?_⟩
    obtain ⟨start, hstart, back, hback, rfl⟩ : ∃ start, chain[forests.length]? = some start ∧
        ∃ back, chain.getLast? = some back ∧ (start, back) = ends := by
      simpa only [startEnd, Nat.add_sub_cancel, Option.bind_eq_bind, Option.bind_eq_some_iff,
        Option.some.injEq] using hc
    exact ⟨hstart, hback⟩
  · exact ((hiterate _).pairwise_iff (fun h => h.symm) |>.2 hinv.pairwise).filter _

/-- The terminals of the labels are gone, and no others. -/
def Removed (labels : List Label) (F F' : Forest) : Prop :=
  ∀ q x m, Tree.leaf q x m ∈ F'.subtrees ↔ Tree.leaf q x m ∈ F.subtrees ∧ x ∉ labels

/-- **One chain is shortened in all forests**; what follows outside of it, still follows. -/
theorem mapM_doAction (hFs : List.Forall₂ (Held width fuel) forests Fs) {lower upper : Label} {ls : List Label}
    (hls : ls ≠ []) (hchain : (lower :: ls).IsChain (Links forests)) (hupper : (lower :: ls).getLast? = some upper) :
    ∃ done Fs', forests.mapM (ShortenChainAction.doAction fuel lower upper) = some done ∧
      List.Forall₂ (Held width fuel) (done.map Prod.snd) Fs' ∧ List.Forall₂ (Removed ls) Fs Fs' ∧
      ∀ x y, x ∉ ls → y ∉ ls → Links forests x y → Links (done.map Prod.snd) x y := by
  induction hFs with
  | nil => exact ⟨[], [], rfl, List.Forall₂.nil, List.Forall₂.nil, fun x y _ _ _ s hs => by cases hs⟩
  | @cons s F forests Fs hF _ ih =>
      obtain ⟨act, s', F', hdo, hsh⟩ := Forest.exists_shorten hF.wellFormed hF.indexed hF.length_le hls
        (hchain.imp fun x y h => h s (List.mem_cons_self ..)) hupper
      obtain ⟨done, Fs', hdone, hheld, hremoved, hlinks⟩ :=
        ih (hchain.imp fun x y h s' hs' => h s' (List.mem_cons_of_mem _ hs'))
      refine ⟨(act, s') :: done, F' :: Fs', ?_, List.Forall₂.cons ?_ hheld,
        List.Forall₂.cons hsh.leaf_mem hremoved, fun x y hx hy h => ?_⟩
      · rw [List.mapM_cons, hdo, Option.bind_eq_bind, Option.bind_some, hdone]
        rfl
      · exact ⟨hsh.wellFormed, hsh.indexed, hsh.length_le.trans hF.length_le⟩
      · rw [List.map_cons]
        refine List.forall_mem_cons.2 ⟨hsh.link x y hx hy (h s (List.mem_cons_self ..)), ?_⟩
        exact hlinks x y hx hy fun s' hs' => h s' (List.mem_cons_of_mem _ hs')

/-- The part of a chain that `isApplicable` reports. -/
theorem Reports.exists_drop {ends : Label × Label} (h : Reports t chain ends) :
    ∃ ls, ls = chain.drop (t + 1) ∧ chain.drop t = ends.1 :: ls ∧ ls ≠ [] ∧
      (ends.1 :: ls).getLast? = some ends.2 := by
  obtain ⟨hlen, hlower, hupper⟩ := h
  have hdrop : chain.drop t = ends.1 :: chain.drop (t + 1) := by
    rw [List.drop_eq_getElem_cons (by omega), (List.getElem_eq_iff (by omega)).2 hlower]
  refine ⟨_, rfl, hdrop, fun h => ?_, ?_⟩
  · have := congrArg List.length h
    rw [List.length_drop, List.length_nil] at this
    omega
  · rw [← hdrop, List.getLast?_drop, if_neg (by omega), hupper]

/-- Some labels and then others are removed. -/
theorem Removed.trans {F F₁ F₂ : Forest} {ls ls' : List Label} (h : Removed ls F F₁) (h' : Removed ls' F₁ F₂) :
    Removed (ls ++ ls') F F₂ := fun q x m => by
  rw [h', h, List.mem_append, not_or, and_assoc]

/-- **All chains are shortened.** -/
theorem shortenChains_spec {chains : List (List Label)} {pairs : List (Label × Label)}
    (hrep : List.Forall₂ (Reports t) chains pairs) (hFs : List.Forall₂ (Held width fuel) forests Fs)
    (hchains : ∀ chain ∈ chains, chain.IsChain (Links forests)) (hdisj : chains.Pairwise List.Disjoint)
    (changes : List (ℕ × ShortenChainAction)) :
    ∃ changes' forests' Fs', shortenChains fuel pairs changes forests = some (changes', forests') ∧
      List.Forall₂ (Held width fuel) forests' Fs' ∧
      List.Forall₂ (Removed (chains.flatMap fun chain => chain.drop (t + 1))) Fs Fs' := by
  induction hrep generalizing forests Fs changes with
  | nil =>
      exact ⟨changes, forests, Fs, rfl, hFs, List.forall₂_same.2 fun F _ q x m => by simp⟩
  | @cons chain ends chains pairs hrep _ ih =>
      rw [List.forall_mem_cons] at hchains
      rw [List.pairwise_cons] at hdisj
      obtain ⟨ls, hls, hdrop, hne, hlast⟩ := hrep.exists_drop
      obtain ⟨done, Fs₁, hdone, hheld, hremoved, hlinks⟩ :=
        mapM_doAction hFs hne (hdrop ▸ hchains.1.drop t) hlast
      -- the other chains have no terminal of this one
      have hout : ∀ c ∈ chains, ∀ x ∈ c, x ∉ ls := fun c hc x hx hxls =>
        hdisj.1 c hc (List.mem_of_mem_drop (hls ▸ hxls)) hx
      obtain ⟨changes', forests', Fs', hrun, hheld', hremoved'⟩ := ih hheld
        (fun c hc => (hchains.2 c hc).imp_of_mem_imp fun x y hx hy => hlinks x y (hout c hc x hx) (hout c hc y hy))
        hdisj.2 _
      refine ⟨changes', forests', Fs', ?_, hheld', ?_⟩
      · rw [shortenChains, hdone]
        exact hrun
      · rw [List.flatMap_cons, ← hls]
        refine Scan.forall₂_trans ?_ hremoved hremoved'
        exact fun F F₁ F₂ => Removed.trans

/-- A chain with links in all forests. -/
theorem isCommonChain (hFs : List.Forall₂ (Held width fuel) forests Fs) (hs : s ∈ forests)
    (hchain : chain.IsChain (Links forests)) (hlen : 1 < chain.length) : IsCommonChain Fs chain := by
  have hlink : ∀ F ∈ Fs, ∃ s' ∈ forests, Held width fuel s' F := (Scan.forall₂_mem hFs).2
  refine ⟨?_, fun F hF => ?_, fun F hF y hy => ?_⟩
  · obtain ⟨F, -, hF⟩ := (Scan.forall₂_mem hFs).1 s hs
    exact (pairwise_rank hF hs hchain).imp fun h he => absurd (he ▸ h) (lt_irrefl _)
  · obtain ⟨s', hs', hF⟩ := hlink F hF
    exact hchain.imp fun x y h => (follows_of_link hF (h s' hs')).1
  · obtain ⟨s', hs', hF⟩ := hlink F hF
    obtain ⟨pre, rfl⟩ := List.getLast?_eq_some_iff.1 hy
    have hne : pre ≠ [] := fun h => by
      rw [h] at hlen
      exact absurd hlen (lt_irrefl 1)
    have hxy := (List.isChain_append.1 hchain).2.2 _ (List.getLast?_eq_some_getLast hne) y rfl
    exact (follows_of_link hF (hxy s' hs')).2

/-- **`isApplicable` reports the ends of common chains that share no terminal, and `apply`
shortens them all.**  Each chain has more than `t + 1` terminals; `apply` meets no null pointer,
and takes the terminals behind the first `t + 1` of each chain out of every forest. -/
theorem isApplicable_apply (hI : IsInstance width fuel forests Fs) {s₀ : Store} (h₀ : forests.head? = some s₀)
    {order : List Label} (horder : ∀ x, x ∈ order ↔ ∃ p, s₀.terminalToLabel p = some x)
    {iterate : List (List Label) → List (List Label)} (hiterate : ∀ chains, (iterate chains).Perm chains) :
    ∃ result, isApplicable fuel order iterate forests = some result ∧
      ∀ pairs, result = some pairs → ∃ chains, List.Forall₂ (Reports forests.length) chains pairs ∧
        (∀ chain ∈ chains, IsCommonChain Fs chain) ∧ chains.Pairwise List.Disjoint ∧
        ∃ rule forests' Fs', apply fuel ⟨pairs, false, []⟩ forests = some (rule, forests') ∧
          List.Forall₂ (fun s F => F.WellFormed width s ∧ F.Indexed s) forests' Fs' ∧
          List.Forall₂ (Removed (chains.flatMap fun chain => chain.drop (forests.length + 1))) Fs Fs' := by
  obtain ⟨result, hresult, hpairs⟩ := isApplicable_spec hI h₀ horder hiterate
  refine ⟨result, hresult, fun pairs h => ?_⟩
  obtain ⟨chains, hrep, hlinks, hdisj⟩ := hpairs pairs h
  obtain ⟨changes, forests', Fs', hrun, hheld, hremoved⟩ := shortenChains_spec hrep hI.held hlinks hdisj []
  refine ⟨chains, hrep, fun chain hc => ?_, hdisj, ⟨pairs, true, changes⟩, forests', Fs', ?_,
    hheld.imp fun s F h => ⟨h.wellFormed, h.indexed⟩, hremoved⟩
  · obtain ⟨ends, -, hlen, -⟩ := (Scan.forall₂_mem hrep).1 chain hc
    exact isCommonChain hI.held (List.mem_of_head? h₀) (hlinks chain hc) (by omega)
  · rw [apply, if_neg Bool.false_ne_true]
    simp only [hrun, Option.bind_eq_bind, Option.bind_some]

/-- A chain of four terminals above the cherry over `1` and `2`. -/
def caterpillar : Forest :=
  [.node 0 (.node 1 (.node 2 (.node 3 (.node 4 (.node 5 (.leaf 6 1 ∅) (.leaf 7 2 ∅)) (.leaf 8 3 ∅)) (.leaf 9 4 ∅))
    (.leaf 10 5 ∅)) (.leaf 11 6 ∅)) (.leaf 12 7 ∅)]

/-- Twice the same tree, in which one chain is found: `apply` shortens it behind `5`. -/
theorem isApplicable_apply_caterpillar :
    isApplicable 14 [1, 2, 3, 4, 5, 6, 7] id [caterpillar.toStore 1, caterpillar.toStore 1] = some (some [(5, 6)]) ∧
      ∃ chains, List.Forall₂ (Reports 2) chains [(5, 6)] ∧
        (∀ chain ∈ chains, IsCommonChain [caterpillar, caterpillar] chain) ∧ chains.Pairwise List.Disjoint ∧
        ∃ rule forests' Fs', apply 14 ⟨[(5, 6)], false, []⟩ [caterpillar.toStore 1, caterpillar.toStore 1] =
            some (rule, forests') ∧
          List.Forall₂ (fun s F => F.WellFormed 1 s ∧ F.Indexed s) forests' Fs' ∧
          List.Forall₂ (Removed (chains.flatMap fun chain => chain.drop 3)) [caterpillar, caterpillar] Fs' := by
  have hheld : Held 1 14 (caterpillar.toStore 1) caterpillar :=
    ⟨Forest.toStore_wellFormed (by decide) (by decide), Forest.toStore_indexed (by decide), by decide⟩
  have hsame : ∀ F ∈ [caterpillar, caterpillar], ∀ G ∈ [caterpillar, caterpillar], F.SameTerminals G := by
    intro F hF G hG
    simp only [List.mem_cons, List.not_mem_nil, or_false, or_self] at hF hG
    rw [hF, hG]
    exact fun x m => Iff.rfl
  have horder : ∀ x, x ∈ [1, 2, 3, 4, 5, 6, 7] ↔ ∃ p, (caterpillar.toStore 1).terminalToLabel p = some x := by
    intro x
    simp only [hheld.indexed.terminalToLabel]
    simp [caterpillar, Forest.subtrees, Tree.subtrees, exists_or]
  have hfound : isApplicable 14 [1, 2, 3, 4, 5, 6, 7] id [caterpillar.toStore 1, caterpillar.toStore 1] =
      some (some [(5, 6)]) := by decide
  obtain ⟨result, hresult, hpairs⟩ := isApplicable_apply ⟨.cons hheld (.cons hheld .nil), by decide, hsame⟩ rfl horder
    fun chains => List.Perm.refl (id chains)
  obtain rfl := Option.some.inj (hfound.symm.trans hresult)
  exact ⟨hfound, hpairs _ rfl⟩

end Result

end ChainReductionRule
end Maf
