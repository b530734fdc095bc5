/-
# Malformed texts

`ReadNewick` checks symbols and numbers, and that a tree has a node at all; it does
not look at the nesting (`Newick.nested`), at labels that occur twice or are `0`,
nor at their number.  What it returns is as it should be (`Unbroken`) and nothing
is wrong with the text (`Newick.Sound`) if and only if the parentheses of every
tree are those of one binary topology, with few labels, all different and from `1`
on, and the order of the roots never asks for `__builtin_ctzll(0)`
(`readNewick_keepsPromise_iff`).

A text that is refused may have done harm before: its nodes may have outgrown what
was reserved, and then one was put into a clade that has moved (`Newick.Stable`).

From the forest back to the text: nodes keep their parents once they are made, and
nothing is attached to a clade that was closed (`Reader.Later`).  So an empty clade
stays a node without children and without label, and a second topology in one tree
stays without a parent and is not a root.
-/

import Maf.Graph.RoundTrip

namespace Maf

namespace Newick

/-- The labels that the events of a tree name. -/
def terminals (es : List Event) : List Label :=
  es.filterMap fun
    | .terminal x => some x
    | _ => none

/-- The parentheses match, and no clade has one or more than two children.  The
list counts the children of the clades that are open. -/
def nested : List ℕ → List Event → Bool
  | clades, [] => clades.isEmpty
  | [], .terminal _ :: es => nested [] es
  | k :: clades, .terminal _ :: es => nested ((k + 1) :: clades) es
  | [], .clade :: es => nested [0] es
  | k :: clades, .clade :: es => nested (0 :: (k + 1) :: clades) es
  | [], .close :: _ => false
  | k :: clades, .close :: es => decide (k ≠ 1 ∧ k ≤ 2) && nested clades es

/-- Nothing is wrong with the trees of a text. -/
structure Sound (numberOfTerminals : ℕ) (ess : List (List Event)) : Prop where
  nested : ∀ es ∈ ess, nested [] es = true
  distinct : (ess.flatMap terminals).Nodup
  positive : 0 ∉ ess.flatMap terminals
  few : (ess.flatMap terminals).length ≤ numberOfTerminals

/-! ### Topologies in the events -/

/-- The terminals of two lists of events. -/
theorem terminals_append (es fs : List Event) : terminals (es ++ fs) = terminals es ++ terminals fs :=
  List.filterMap_append

/-- The events of a leaf have its label. -/
@[simp] theorem terminals_tip (x : Label) : terminals (Shape.tip x).events = [x] := rfl

/-- The events of a node have the labels of its children. -/
theorem terminals_join (a b : Shape) :
    terminals (Shape.join a b).events = terminals a.events ++ terminals b.events := by
  rw [Shape.events, ← List.singleton_append, terminals_append, terminals_append, terminals_append]
  simp [terminals]

/-- The events of a topology have its labels. -/
theorem mem_terminals_events {t : Shape} {x : Label} : x ∈ terminals t.events ↔ x ∈ t.labels := by
  induction t with
  | tip y => simp
  | join a b iha ihb => rw [terminals_join, List.mem_append, iha, ihb, Shape.labels, Finset.mem_union]

/-- No label is read twice exactly when the topology has none twice. -/
theorem nodup_terminals_events {t : Shape} : (terminals t.events).Nodup ↔ t.Distinct := by
  induction t with
  | tip y => simp [Shape.Distinct]
  | join a b iha ihb =>
      rw [terminals_join, List.nodup_append, iha, ihb, Shape.Distinct, Finset.disjoint_left]
      refine and_congr_right fun _ => and_congr_right fun _ => ⟨fun h x hx hx' => ?_, fun h x hx y hy he => ?_⟩
      · exact h x (mem_terminals_events.2 hx) x (mem_terminals_events.2 hx') rfl
      · exact h (mem_terminals_events.1 hx) (mem_terminals_events.1 (he ▸ hy))

/-- There are as many terminals as labels. -/
theorem length_terminals_events {t : Shape} (ht : t.Distinct) : (terminals t.events).length = t.labels.card := by
  induction t with
  | tip y => rfl
  | join a b iha ihb =>
      rw [terminals_join, List.length_append, iha ht.1, ihb ht.2.1, Shape.labels,
        Finset.card_union_of_disjoint ht.2.2]

/-- One more child of the clade that is open. -/
def bump : List ℕ → List ℕ
  | [] => []
  | k :: clades => (k + 1) :: clades

/-- A topology is one child. -/
theorem nested_events (t : Shape) (clades : List ℕ) (es : List Event) :
    nested clades (t.events ++ es) = nested (bump clades) es := by
  induction t generalizing clades es with
  | tip x => cases clades <;> rfl
  | join a b iha ihb =>
      have hopen : nested clades ((Shape.join a b).events ++ es) =
          nested (0 :: bump clades) (a.events ++ (b.events ++ .close :: es)) := by
        rw [Shape.events, List.cons_append, List.append_assoc, List.append_assoc, List.singleton_append]
        cases clades <;> rfl
      rw [hopen, iha, ihb]
      simp [bump, nested]

/-- No clade is closed at once. -/
def Solid (es : List Event) : Prop := ∀ fs gs, es ≠ fs ++ .clade :: .close :: gs

/-- The last events of a solid list are solid. -/
theorem Solid.of_append {es : List Event} (fs : List Event) (h : Solid (fs ++ es)) : Solid es := by
  rintro gs hs rfl
  exact h (fs ++ gs) hs (by rw [List.append_assoc])

/-- What is left of nested events: topologies up to the end of the clade that is
open. -/
def Parsed : List ℕ → List Event → Prop
  | [], es => ∃ items : List Shape, es = items.flatMap Shape.events
  | k :: clades, es => ∃ (items : List Shape) (rest : List Event), es = items.flatMap Shape.events ++ .close :: rest ∧
      (k + items.length = 0 ∨ k + items.length = 2) ∧ nested clades rest = true

/-- A topology before them. -/
theorem Parsed.cons {clades : List ℕ} {es : List Event} (t : Shape) (h : Parsed (bump clades) es) :
    Parsed clades (t.events ++ es) := by
  cases clades with
  | nil =>
      obtain ⟨items, rfl⟩ := h
      exact ⟨t :: items, rfl⟩
  | cons k clades =>
      obtain ⟨items, rest, rfl, hk, hrest⟩ := h
      refine ⟨t :: items, rest, by rw [List.flatMap_cons, List.append_assoc], ?_, hrest⟩
      rw [List.length_cons]
      omega

/-- **Nested events are those of topologies.** -/
theorem parsed_of_nested {clades : List ℕ} {es : List Event} (h : nested clades es = true) (hs : Solid es) :
    Parsed clades es := by
  obtain ⟨n, hn⟩ : ∃ n, es.length ≤ n := ⟨_, le_rfl⟩
  induction n generalizing clades es with
  | zero =>
      obtain rfl := List.length_eq_zero_iff.1 (Nat.le_zero.1 hn)
      cases clades with
      | nil => exact ⟨[], rfl⟩
      | cons => cases h
  | succ n ih =>
      cases es with
      | nil =>
          cases clades with
          | nil => exact ⟨[], rfl⟩
          | cons => cases h
      | cons e es =>
          have hs' : Solid es := Solid.of_append [e] hs
          have hn' : es.length ≤ n := Nat.le_of_succ_le_succ hn
          cases e with
          | terminal x =>
              have h' : nested (bump clades) es = true := by
                rw [← nested_events (.tip x) clades es]
                exact h
              exact (ih h' hs' hn').cons (.tip x)
          | close =>
              cases clades with
              | nil => cases h
              | cons k clades =>
                  simp only [nested, Bool.and_eq_true, decide_eq_true_eq] at h
                  refine ⟨[], es, rfl, ?_, h.2⟩
                  simp only [List.length_nil]
                  omega
          | clade =>
              have h' : nested (0 :: bump clades) es = true := by
                cases clades <;> exact h
              obtain ⟨items, rest, rfl, hk, hrest⟩ := ih h' hs' hn'
              match items, hk with
              | [], _ => exact absurd rfl (hs [] rest)
              | [a, b], _ =>
                  have hlen : rest.length ≤ n := by
                    rw [List.length_append, List.length_cons] at hn'
                    omega
                  have hjoin : Event.clade :: ([a, b].flatMap Shape.events ++ .close :: rest) =
                      (Shape.join a b).events ++ rest := by simp [Shape.events]
                  rw [hjoin] at hs ⊢
                  exact (ih hrest (Solid.of_append _ hs) hlen).cons (.join a b)

/-- **Topologies are sound** when their labels are few, all different and from `1` on. -/
theorem sound_events_iff {ts : List Shape} {n : ℕ} : Sound n (ts.map Shape.events) ↔
    Shape.AllDistinct ts ∧ (∀ t ∈ ts, 0 ∉ t.labels) ∧ (ts.map fun t => t.labels.card).sum ≤ n := by
  have hflat : (ts.map Shape.events).flatMap terminals = ts.flatMap fun t => terminals t.events :=
    List.flatMap_map ..
  have hnd : ((ts.map Shape.events).flatMap terminals).Nodup ↔ Shape.AllDistinct ts := by
    rw [hflat, List.nodup_flatMap, Shape.AllDistinct]
    have hdis : ∀ t u : Shape, List.Disjoint (terminals t.events) (terminals u.events) ↔
        Disjoint t.labels u.labels := by
      intro t u
      rw [Finset.disjoint_left]
      exact ⟨fun h x hx hx' => h (mem_terminals_events.2 hx) (mem_terminals_events.2 hx'),
        fun h x hx hx' => h (mem_terminals_events.1 hx) (mem_terminals_events.1 hx')⟩
    exact and_congr (forall₂_congr fun t _ => nodup_terminals_events) (List.Pairwise.iff fun t u => hdis t u)
  have hlen : Shape.AllDistinct ts →
      ((ts.map Shape.events).flatMap terminals).length = (ts.map fun t => t.labels.card).sum := by
    intro hts
    rw [hflat, List.length_flatMap]
    exact congrArg List.sum (List.map_congr_left fun t ht => length_terminals_events (hts.1 t ht))
  have hpos : 0 ∉ (ts.map Shape.events).flatMap terminals ↔ ∀ t ∈ ts, 0 ∉ t.labels := by
    rw [hflat, List.mem_flatMap]
    simp [mem_terminals_events]
  constructor
  · rintro ⟨-, hd, hp, hf⟩
    have hts := hnd.1 hd
    exact ⟨hts, hpos.1 hp, hlen hts ▸ hf⟩
  · rintro ⟨hts, hp, hf⟩
    refine ⟨fun es hes => ?_, hnd.2 hts, hpos.2 hp, (hlen hts).le.trans hf⟩
    obtain ⟨t, -, rfl⟩ := List.mem_map.1 hes
    have h := nested_events t [] []
    rwa [List.append_nil] at h

/-! ### What is refused -/

/-- What is refused is refused with an exception, and `P` holds of what is not. -/
def Lexed {α : Type} (P : α → Prop) : Except Failure α → Prop
  | .ok a => P a
  | .error e => ∃ what, e = .exception what

/-- Two parts of the lexer after each other. -/
theorem Lexed.bind {α β : Type} {P : α → Prop} {Q : β → Prop} {x : Except Failure α} {f : α → Except Failure β}
    (hx : Lexed P x) (hf : ∀ a, P a → Lexed Q (f a)) : Lexed Q (x >>= f) := by
  cases x with
  | error e => exact hx
  | ok a => exact hf a hx

/-- Labels are in the range of `int`. -/
def Small (es : List Event) : Prop := ∀ x ∈ terminals es, x < 2 ^ 31

/-- Two lists of small labels are one. -/
theorem small_append {es fs : List Event} (he : Small es) (hf : Small fs) : Small (es ++ fs) := by
  intro x hx
  rw [terminals_append, List.mem_append] at hx
  exact hx.elim (he x) (hf x)

/-- The lexer reads a label. -/
theorem lexLabel_lexed (label : List Char) : Lexed Small (lexLabel label) := by
  unfold lexLabel stoi
  split_ifs with h₁ h₂
  · exact fun x hx => by cases hx
  · intro x hx
    rw [List.mem_singleton.1 hx]
    exact h₂
  · exact ⟨_, rfl⟩

/-- The lexer reads a line. -/
theorem lexLine_lexed (label cs : List Char) : Lexed (fun r => Small r.1) (lexLine label cs) := by
  induction cs generalizing label with
  | nil => exact fun x hx => by cases hx
  | cons c cs ih =>
      have hl := lexLabel_lexed label
      unfold lexLine
      split_ifs
      · exact hl.bind fun es he => he
      · exact hl.bind fun es he => (ih []).bind fun r hr => small_append he hr
      · exact hl.bind fun es he => (ih []).bind fun r hr => small_append he hr
      · exact (ih label).bind fun r hr => hr
      · exact ih _
      · exact ⟨_, rfl⟩

/-- The lexer reads a tree. -/
theorem lexTree_lexed (ls : List (List Char)) : Lexed (fun r => Small r.1) (lexTree ls) := by
  induction ls with
  | nil => exact fun x hx => by cases hx
  | cons line ls ih =>
      unfold lexTree
      split_ifs
      · exact ih
      · refine (lexLine_lexed [] line).bind fun r hr => ?_
        split
        split_ifs
        · exact hr
        · exact ih.bind fun r' hr' => small_append hr hr'

/-- **Trees that are not refused** have a node, and their labels are in the range of
`int`. -/
theorem lexTrees_lexed (n : ℕ) (ls : List (List Char)) : Lexed (fun ess => ess.length = n ∧
    ∀ es ∈ ess, Small es ∧ es.all (· = .close) = false) (lexTrees n ls) := by
  induction n generalizing ls with
  | zero => exact ⟨rfl, fun _ h => (List.not_mem_nil h).elim⟩
  | succ n ih =>
      unfold lexTrees
      refine (lexTree_lexed ls).bind fun r hr => ?_
      split
      split_ifs with hall
      · exact ⟨_, rfl⟩
      · refine (ih _).bind fun ess hess => ⟨by simp [hess.1], fun es hes => ?_⟩
        rcases List.mem_cons.1 hes with rfl | hes
        · exact ⟨hr, Bool.eq_false_iff.2 hall⟩
        · exact hess.2 es hes

end Newick

namespace Graph

open Bitset (wordOf)
open Newick (Event Failure Stable lexTrees seenTrees terminals Sound Solid)

namespace Reader

/-! ### What stays -/

/-- A root, of this tree or an earlier one. -/
def IsRoot (σ : Reader) (q : Ptr) : Prop := q ∈ σ.roots ∨ σ.currentRoot = some q

/-- The reader comes from the state `σ` to the state `τ`. -/
structure Later (σ τ : Reader) : Prop where
  tidy : τ.Tidy
  size : σ.size ≤ τ.size
  parent : ∀ q < σ.size, (τ.nodes q).parent = (σ.nodes q).parent
  terminalToLabel : ∀ q < σ.size, τ.terminalToLabel q = σ.terminalToLabel q
  labelToTerminal : ∀ x p, σ.labelToTerminal x = some p → τ.labelToTerminal x = some p
  roots : ∀ q < σ.size, τ.IsRoot q → σ.IsRoot q
  grounded : (∀ q, σ.IsRoot q → q < σ.size) → ∀ q, τ.IsRoot q → q < τ.size
  closed : ∀ q < σ.size, q ∉ σ.parentStack → q ∉ τ.parentStack ∧
    (τ.nodes q).leftChild = (σ.nodes q).leftChild ∧ (τ.nodes q).rightChild = (σ.nodes q).rightChild

/-- Nothing happens in between. -/
theorem Later.refl {σ : Reader} (h : σ.Tidy) : Later σ σ :=
  ⟨h, le_rfl, fun _ _ => rfl, fun _ _ => rfl, fun _ _ h => h, fun _ _ h => h, id, fun _ _ h => ⟨h, rfl, rfl⟩⟩

/-- One state after another. -/
theorem Later.trans {σ τ υ : Reader} (h : Later σ τ) (h' : Later τ υ) : Later σ υ := by
  have hlt : ∀ {q}, q < σ.size → q < τ.size := fun hq => hq.trans_le h.size
  refine ⟨h'.tidy, h.size.trans h'.size, fun q hq => (h'.parent q (hlt hq)).trans (h.parent q hq),
    fun q hq => (h'.terminalToLabel q (hlt hq)).trans (h.terminalToLabel q hq),
    fun x p hx => h'.labelToTerminal x p (h.labelToTerminal x p hx),
    fun q hq hr => h.roots q hq (h'.roots q (hlt hq) hr), fun hg => h'.grounded (h.grounded hg), fun q hq hs => ?_⟩
  obtain ⟨hs₁, hl₁, hr₁⟩ := h.closed q hq hs
  obtain ⟨hs₂, hl₂, hr₂⟩ := h'.closed q (hlt hq) hs₁
  exact ⟨hs₂, hl₂.trans hl₁, hr₂.trans hr₁⟩

/-- A new node. -/
theorem later_addNode {σ : Reader} (h : σ.Tidy) : Later σ { σ.addNode.2 with sibling := none } := by
  have hne : ∀ {q}, q < σ.size → q ≠ σ.size := fun hq => hq.ne
  have hroot : ∀ {q}, IsRoot { σ.addNode.2 with sibling := none } q → σ.IsRoot q ∨ q = σ.size := by
    rintro q (hr | hr)
    · exact Or.inl (Or.inl hr)
    · have hr : (if σ.currentRoot = none then some σ.size else σ.currentRoot) = some q := hr
      split_ifs at hr
      · exact Or.inr (Option.some.inj hr).symm
      · exact Or.inl (Or.inr hr)
  refine ⟨⟨fun q hq => h.fresh q (Nat.le_of_succ_le hq), h.keys, fun q hq => (h.stack q hq).trans (Nat.lt_succ_self _),
    fun q hq => by cases hq⟩, Nat.le_succ _, fun q hq => ?_, fun _ _ => rfl, fun _ _ h => h, fun q hq hr => ?_,
    fun hg q hr => ?_, fun q hq hs => ?_⟩
  · show (σ.addNode.2.nodes q).parent = _
    rw [addNode_nodes h, if_neg (hne hq)]
    rfl
  · exact (hroot hr).resolve_right (hne hq)
  · rcases hroot hr with hr | rfl
    · exact (hg q hr).trans (Nat.lt_succ_self _)
    · exact Nat.lt_succ_self _
  · refine ⟨hs, ?_⟩
    have hhead : σ.parentStack.head? ≠ some q := fun he => hs (List.mem_of_head? he)
    show (σ.addNode.2.nodes q).leftChild = _ ∧ (σ.addNode.2.nodes q).rightChild = _
    rw [addNode_nodes h, if_neg (hne hq)]
    simp [attach, hhead]

/-- Opening a clade only adds a node. -/
theorem later_clade {σ : Reader} (h : σ.Tidy) : Later σ σ.clade := by
  have hnew := later_addNode h
  refine ⟨tidy_clade h, hnew.size, hnew.parent, hnew.terminalToLabel, hnew.labelToTerminal, hnew.roots,
    hnew.grounded, fun q hq hs => ⟨?_, (hnew.closed q hq hs).2⟩⟩
  rw [show σ.clade.parentStack = σ.size :: σ.parentStack from rfl, List.mem_cons, not_or]
  exact ⟨hq.ne, hs⟩

/-- A terminal only adds a node. -/
theorem later_terminal {σ : Reader} (h : σ.Tidy) (x : Label) : Later σ (σ.step (.terminal x)) := by
  have hnew := later_addNode h
  have hfresh : (σ.terminalToLabel σ.size).isSome = false := by rw [h.fresh _ le_rfl]; rfl
  have hlab : (σ.step (.terminal x)).terminalToLabel = Function.update σ.terminalToLabel σ.size (some x) := by
    simp only [step, addTerminal]
    rw [show σ.addNode.2.terminalToLabel = σ.terminalToLabel from rfl, show σ.addNode.1 = σ.size from rfl, hfresh]
    rfl
  have hkey : (σ.step (.terminal x)).labelToTerminal = if (σ.labelToTerminal x).isSome then σ.labelToTerminal
      else Function.update σ.labelToTerminal x (some σ.size) := rfl
  have hlabels : (σ.step (.terminal x)).labels = if (σ.labelToTerminal x).isSome then σ.labels
      else x :: σ.labels := rfl
  refine ⟨⟨fun q hq => ?_, fun y => ?_, hnew.tidy.stack, fun q hq => ?_⟩, hnew.size, hnew.parent, fun q hq => ?_,
    fun y p hy => ?_, hnew.roots, hnew.grounded, hnew.closed⟩
  · have hlt : σ.size < q := hq
    rw [hlab, Function.update_of_ne hlt.ne', h.fresh q hlt.le]
  · rw [hkey, hlabels]
    split_ifs with hx
    · exact h.keys y
    · rw [List.mem_cons]
      by_cases hy : y = x
      · simp [hy]
      · rw [Function.update_of_ne hy, h.keys y]
        simp [hy]
  · rw [← Option.some.inj hq]
    exact Nat.lt_succ_self _
  · rw [hlab, Function.update_of_ne hq.ne]
  · rw [hkey]
    split_ifs with hx
    · exact hy
    · rw [Function.update_of_ne, hy]
      rintro rfl
      rw [hy] at hx
      exact hx rfl

/-- Closing a clade adds nothing. -/
theorem later_close {σ : Reader} (h : σ.Tidy) : Later σ σ.close := by
  unfold close
  cases hs : σ.parentStack with
  | nil =>
      exact ⟨⟨h.fresh, h.keys, fun _ hq => (List.not_mem_nil hq).elim, fun _ hq => by cases hq⟩, le_rfl,
        fun _ _ => rfl, fun _ _ => rfl, fun _ _ h => h, fun _ _ h => h, id,
        fun _ _ _ => ⟨List.not_mem_nil, rfl, rfl⟩⟩
  | cons top stack =>
      have hmem : ∀ q ∈ stack, q ∈ σ.parentStack := fun q hq => hs ▸ List.mem_cons_of_mem _ hq
      refine ⟨⟨h.fresh, h.keys, fun q hq => h.stack q (hmem q hq), fun q hq => ?_⟩, le_rfl, fun _ _ => rfl,
        fun _ _ => rfl, fun _ _ h => h, fun _ _ h => h, id, fun q _ hq => ⟨fun hq' => hq (hmem q hq'), rfl, rfl⟩⟩
      rw [← Option.some.inj hq]
      exact h.stack top (hs ▸ List.mem_cons_self ..)

/-- **An event keeps what was built.** -/
theorem later_step {σ : Reader} (h : σ.Tidy) : ∀ e, Later σ (σ.step e)
  | .clade => later_clade h
  | .terminal x => later_terminal h x
  | .close => later_close h

/-- **The events of a tree keep what was built.** -/
theorem later_steps {σ : Reader} (h : σ.Tidy) (es : List Event) : Later σ (σ.steps es) := by
  induction es generalizing σ with
  | nil => exact .refl h
  | cons e es ih => exact (later_step h e).trans (ih (later_step h e).tidy)

/-- The end of a tree. -/
theorem later_finish {σ : Reader} (h : σ.Tidy) : Later σ σ.finish := by
  have hroot : ∀ {q}, σ.finish.IsRoot q → σ.IsRoot q := by
    rintro q (hr | hr)
    · rwa [show σ.finish.roots = σ.roots ++ σ.currentRoot.toList from rfl, List.mem_append, Option.mem_toList] at hr
    · exact Or.inr hr
  exact ⟨⟨h.fresh, h.keys, fun _ hq => (List.not_mem_nil hq).elim, fun _ hq => by cases hq⟩, le_rfl, fun _ _ => rfl,
    fun _ _ => rfl, fun _ _ h => h, fun _ _ hr => hroot hr, fun hg q hr => hg q (hroot hr),
    fun _ _ _ => ⟨List.not_mem_nil, rfl, rfl⟩⟩

/-- Between two trees nothing is open. -/
theorem idle_finish {σ : Reader} (h : σ.Tidy) : σ.finish.Idle := ⟨(later_finish h).tidy, rfl, rfl⟩

/-- The start of a tree. -/
theorem later_start {σ : Reader} (h : σ.Tidy) : Later σ { σ with currentRoot := none } :=
  ⟨⟨h.fresh, h.keys, h.stack, h.sibling⟩, le_rfl, fun _ _ => rfl, fun _ _ => rfl, fun _ _ h => h,
    fun _ _ hr => Or.inl (hr.resolve_right (by simp)), fun hg q hr => hg q (Or.inl (hr.resolve_right (by simp))),
    fun _ _ hq => ⟨hq, rfl, rfl⟩⟩

/-- A tree only adds nodes. -/
theorem later_tree {σ : Reader} (h : σ.Tidy) (es : List Event) : Later σ (σ.tree es) := by
  have h₁ := later_start h
  have h₂ := later_steps h₁.tidy es
  exact (h₁.trans h₂).trans (later_finish h₂.tidy)

/-- After a tree nothing is open. -/
theorem idle_tree {σ : Reader} (h : σ.Tidy) (es : List Event) : (σ.tree es).Idle :=
  idle_finish (later_steps (later_start h).tidy es).tidy

/-- **The events of some trees keep what was built.** -/
theorem later_trees {σ : Reader} (h : σ.Tidy) (ess : List (List Event)) : Later σ (σ.trees ess) := by
  induction ess generalizing σ with
  | nil => exact .refl h
  | cons es ess ih => exact (later_tree h es).trans (ih (later_tree h es).tidy)

/-- After some trees nothing is open. -/
theorem idle_trees {σ : Reader} (h : σ.Idle) (ess : List (List Event)) : (σ.trees ess).Idle := by
  induction ess generalizing σ with
  | nil => exact h
  | cons es ess ih => exact ih (idle_tree h.tidy es)

/-- The keys of `labelToTerminal` are the labels of the events. -/
theorem mem_labels_steps {σ : Reader} (h : σ.Tidy) (es : List Event) (x : Label) :
    x ∈ (σ.steps es).labels ↔ x ∈ terminals es ∨ x ∈ σ.labels := by
  induction es generalizing σ with
  | nil => simp [terminals]
  | cons e es ih =>
      rw [steps_cons, ih (later_step h e).tidy]
      cases e with
      | clade => rfl
      | terminal y =>
          have hlabels : (σ.step (.terminal y)).labels = if (σ.labelToTerminal y).isSome then σ.labels
              else y :: σ.labels := rfl
          rw [hlabels, show terminals (.terminal y :: es) = y :: terminals es from rfl, List.mem_cons]
          split_ifs with hy
          · have hmem := (h.keys y).1 hy
            constructor
            · rintro (hx | hx)
              · exact Or.inl (Or.inr hx)
              · exact Or.inr hx
            · rintro ((rfl | hx) | hx)
              · exact Or.inr hmem
              · exact Or.inl hx
              · exact Or.inr hx
          · rw [List.mem_cons]
            tauto
      | close =>
          have hlabels : (σ.step .close).labels = σ.labels := by
            simp only [step, close]
            cases σ.parentStack <;> rfl
          rw [hlabels]
          rfl

/-- The labels after some trees are those that were read. -/
theorem mem_labels_trees {σ : Reader} (h : σ.Tidy) (ess : List (List Event)) (x : Label) :
    x ∈ (σ.trees ess).labels ↔ x ∈ ess.flatMap terminals ∨ x ∈ σ.labels := by
  induction ess generalizing σ with
  | nil => simp [trees]
  | cons es ess ih =>
      have ht : x ∈ (σ.tree es).labels ↔ x ∈ terminals es ∨ x ∈ σ.labels :=
        mem_labels_steps (later_start h).tidy es x
      rw [show σ.trees (es :: ess) = (σ.tree es).trees ess from rfl, ih (later_tree h es).tidy, ht, List.flatMap_cons,
        List.mem_append]
      tauto

/-- The reader starts tidy. -/
theorem tidy_start : ({} : Reader).Tidy :=
  ⟨fun _ _ => rfl, fun _ => by simp, fun _ h => (List.not_mem_nil h).elim, fun _ h => by cases h⟩

/-- The state after some trees and some events of the next. -/
def after (pre : List (List Event)) (es : List Event) : Reader :=
  ({ ({} : Reader).trees pre with currentRoot := none } : Reader).steps es

/-- What comes after some trees and events is later. -/
theorem later_after (pre : List (List Event)) (es : List Event) : Later {} (after pre es) := by
  have h₁ := later_trees tidy_start pre
  have h₂ := h₁.trans (later_start h₁.tidy)
  exact h₂.trans (later_steps h₂.tidy es)

/-- The end of the text comes later. -/
theorem later_end (pre : List (List Event)) (fs gs : List Event) (post : List (List Event)) :
    Later (after pre fs) (({} : Reader).trees (pre ++ (fs ++ gs) :: post)) := by
  have hend : ({} : Reader).trees (pre ++ (fs ++ gs) :: post) = ((after pre fs).steps gs).finish.trees post := by
    rw [trees, List.foldl_append, List.foldl_cons, tree, steps_append]
    rfl
  have h₁ := later_steps (later_after pre fs).tidy gs
  have h₂ := h₁.trans (later_finish h₁.tidy)
  rw [hend]
  exact h₂.trans (later_trees h₂.tidy post)

/-- **An empty clade** stays a node without children and without a label. -/
theorem exists_barren (pre : List (List Event)) (fs gs : List Event) (post : List (List Event)) {τ : Reader}
    (hτ : τ = ({} : Reader).trees (pre ++ (fs ++ .clade :: .close :: gs) :: post)) :
    ∃ q < τ.size, (τ.nodes q).leftChild = none ∧ τ.terminalToLabel q = none := by
  have hσ := (later_after pre fs).tidy
  have hafter : after pre (fs ++ [.clade, .close]) = (after pre fs).clade.close := by
    rw [after, steps_append]
    rfl
  have hend := later_end pre (fs ++ [.clade, .close]) gs post
  rw [hafter, List.append_assoc, List.cons_append, List.singleton_append, ← hτ] at hend
  set σ := after pre fs
  have hclose : σ.clade.close = { σ.clade with sibling := some σ.size, parentStack := σ.parentStack } := rfl
  have hq : σ.size < σ.clade.close.size := by
    rw [hclose]
    exact Nat.lt_succ_self _
  have hclosed : σ.size ∉ σ.clade.close.parentStack := by
    rw [hclose]
    exact fun h => lt_irrefl _ (hσ.stack _ h)
  refine ⟨σ.size, hq.trans_le hend.size, ?_, ?_⟩
  · rw [(hend.closed _ hq hclosed).2.1]
    show (σ.addNode.2.nodes σ.size).leftChild = none
    rw [addNode_nodes hσ, if_pos rfl]
  · rw [hend.terminalToLabel _ hq]
    exact hσ.fresh _ le_rfl

/-- **A second topology in a tree** stays apart: the way up from its nodes does not
lead to a root. -/
theorem exists_apart (pre : List (List Event)) (a b : Shape) (gs : List Event) (post : List (List Event))
    (hnd : ((pre ++ (a.events ++ (b.events ++ gs)) :: post).flatMap terminals).Nodup) {τ : Reader}
    (hτ : τ = ({} : Reader).trees (pre ++ (a.events ++ (b.events ++ gs)) :: post)) :
    ∃ D : Set Ptr, ∃ p ∈ D, (∃ x ∈ b.labels, τ.labelToTerminal x = some p) ∧
      ∀ q ∈ D, q < τ.size ∧ q ∉ τ.roots ∧ ∀ q', (τ.nodes q).parent = some q' → q' ∈ D := by
  have hend := later_end pre (a.events ++ b.events) gs post
  rw [List.append_assoc, ← hτ] at hend
  -- the labels that were read before are other ones
  rw [List.flatMap_append, List.flatMap_cons, Newick.terminals_append, Newick.terminals_append] at hnd
  obtain ⟨-, hnd₁, hpre⟩ := List.nodup_append.1 hnd
  obtain ⟨hnd₂, -, -⟩ := List.nodup_append.1 hnd₁
  obtain ⟨hnda, hnd₃, hab⟩ := List.nodup_append.1 hnd₂
  obtain ⟨hndb, -, -⟩ := List.nodup_append.1 hnd₃
  have hidle := idle_trees ⟨tidy_start, rfl, rfl⟩ pre
  set σ₀ : Reader := { ({} : Reader).trees pre with currentRoot := none } with hσ₀
  have hkeys : ∀ x, x ∈ σ₀.labels ↔ x ∈ pre.flatMap terminals := fun x =>
    (mem_labels_trees tidy_start pre x).trans (by simp)
  have htidy₀ := (later_start hidle.tidy).tidy
  have ha := built_events (Newick.nodup_terminals_events.1 hnda) htidy₀ fun x hx hx₀ =>
    hpre x ((hkeys x).1 hx₀) x (by simp [Newick.mem_terminals_events.2 hx]) rfl
  set σ₁ := σ₀.steps a.events with hσ₁
  have hb := built_events (Newick.nodup_terminals_events.1 hndb) ha.tidy fun x hx hx₁ => by
    rcases (ha.labels x).1 hx₁ with hxa | hx₀
    · exact hab x (Newick.mem_terminals_events.2 hxa) x (by simp [Newick.mem_terminals_events.2 hx]) rfl
    · exact hpre x ((hkeys x).1 hx₀) x (by simp [Newick.mem_terminals_events.2 hx]) rfl
  have hafter : after pre (a.events ++ b.events) = σ₁.steps b.events := by rw [after, steps_append]
  rw [hafter] at hend
  set σ₂ := σ₁.steps b.events with hσ₂
  have hstack : σ₁.parentStack = [] := ha.parentStack.trans hidle.parentStack
  have hst : (b.build σ₁.size).Stored 0 σ₂.nodes none none := by
    have h := hb.stored
    rwa [hstack, if_pos rfl] at h
  -- the first topology holds the root of the tree
  have hroot : ∀ q, σ₂.IsRoot q → σ₁.IsRoot q := by
    rintro q (hq | hq)
    · exact Or.inl (hb.roots ▸ hq)
    · refine Or.inr ?_
      rwa [hb.currentRoot, ha.currentRoot, Option.getD_some, ← ha.currentRoot] at hq
  obtain ⟨p, m, hleaf⟩ := Tree.exists_leaf ((Shape.labels_build σ₁.size b).symm ▸ b.least_mem)
  refine ⟨{q | q ∈ (b.build σ₁.size).ptrs}, p, Tree.ptr_mem_ptrs hleaf, ⟨b.least, b.least_mem, ?_⟩, fun q hq => ?_⟩
  · exact hend.labelToTerminal _ _ (hb.labelToTerminal p _ m hleaf)
  · have hrange : q ∈ List.range' σ₁.size b.size := by
      rw [← Shape.ptrs_build]
      exact hq
    rw [List.mem_range'_1, ← hb.size] at hrange
    refine ⟨hrange.2.trans_le hend.size, fun hr => ?_, fun q' hq' => ?_⟩
    · have hold := (later_after pre a.events).grounded (fun _ h => by rcases h with h | h <;> cases h) q
        (hroot q (hend.roots q hrange.2 (Or.inl hr)))
      exact absurd hold (not_lt.2 hrange.1)
    · rw [hend.parent q hrange.2] at hq'
      exact (hst.parent_mem hq hq').resolve_left fun h => by cases h.2

end Reader
/-! ### What sorting leaves -/

/-- The same parents, and the same children, perhaps the other way round. -/
def SameLinks (h h' : Nodes) : Prop := ∀ q, (h' q).parent = (h q).parent ∧
  ((h' q).leftChild = (h q).leftChild ∧ (h' q).rightChild = (h q).rightChild ∨
    (h' q).leftChild = (h q).rightChild ∧ (h' q).rightChild = (h q).leftChild)

/-- No link is changed. -/
theorem SameLinks.refl (h : Nodes) : SameLinks h h := fun _ => ⟨rfl, Or.inl ⟨rfl, rfl⟩⟩

/-- Links that are kept twice are kept. -/
theorem SameLinks.trans {h h' h'' : Nodes} (h₁ : SameLinks h h') (h₂ : SameLinks h' h'') : SameLinks h h'' := by
  intro q
  obtain ⟨hp₁, hc₁⟩ := h₁ q
  obtain ⟨hp₂, hc₂⟩ := h₂ q
  refine ⟨hp₂.trans hp₁, ?_⟩
  rcases hc₂ with ⟨hl, hr⟩ | ⟨hl, hr⟩ <;> rw [hl, hr]
  · exact hc₁
  · exact hc₁.symm.imp And.symm And.symm

/-- A write that keeps the parent and at most swaps the children keeps the links. -/
theorem sameLinks_modify {h : Nodes} {p : Ptr} {f : Node → Node} (hp : (f (h p)).parent = (h p).parent)
    (hc : (f (h p)).leftChild = (h p).leftChild ∧ (f (h p)).rightChild = (h p).rightChild ∨
      (f (h p)).leftChild = (h p).rightChild ∧ (f (h p)).rightChild = (h p).leftChild) :
    SameLinks h (h.modify p f) := by
  intro q
  by_cases hq : q = p
  · subst hq
    rw [Nodes.modify_self]
    exact ⟨hp, hc⟩
  · rw [Nodes.modify_of_ne _ _ hq]
    exact ⟨rfl, Or.inl ⟨rfl, rfl⟩⟩

/-- No exception is thrown, and `P` holds of what is returned. -/
def NoException {α : Type} (P : α → Prop) : Except Failure α → Prop
  | .ok a => P a
  | .error e => e = .undefined

/-- Two parts without exception after each other. -/
theorem NoException.bind {α β : Type} {P : α → Prop} {Q : β → Prop} {x : Except Failure α} {f : α → Except Failure β}
    (hx : NoException P x) (hf : ∀ a, P a → NoException Q (f a)) : NoException Q (x >>= f) := by
  cases x with
  | error e => exact hx
  | ok a => exact hf a hx

/-- The result may be said more weakly. -/
theorem NoException.mono {α : Type} {P Q : α → Prop} {x : Except Failure α} (hx : NoException P x)
    (h : ∀ a, P a → Q a) : NoException Q x := by
  cases x with
  | error e => exact hx
  | ok a => exact h a hx

/-- **Sorting keeps the links.** -/
theorem orderSubtree_links (terminalToLabel : Ptr → Option Label) (numberOfEntries fuel : ℕ) (o : Option Ptr)
    (h : Nodes) :
    NoException (fun r => SameLinks h r.2) (orderSubtree terminalToLabel numberOfEntries fuel o h) := by
  induction fuel generalizing o h with
  | zero => exact rfl
  | succ fuel ih =>
      cases o with
      | none => exact rfl
      | some p =>
          rw [orderSubtree]
          set h₁ := h.modify p fun n => { n with subtreeTerminals := resize numberOfEntries n.subtreeTerminals }
          have hlinks₁ : SameLinks h h₁ := sameLinks_modify rfl (Or.inl ⟨rfl, rfl⟩)
          cases terminalToLabel p with
          | some label =>
              simp only
              split_ifs
              · exact hlinks₁.trans (sameLinks_modify rfl (Or.inl ⟨rfl, rfl⟩))
              · exact rfl
          | none =>
              refine (ih (h₁ p).leftChild h₁).bind fun r₂ hlinks₂ => ?_
              refine (ih (r₂.2 p).rightChild r₂.2).bind fun r₃ hlinks₃ => ?_
              have hlinks := (hlinks₁.trans hlinks₂).trans hlinks₃
              simp only
              generalize hh₄ : (if r₃.1 < r₂.1 then
                r₃.2.modify p fun n => { n with leftChild := n.rightChild, rightChild := n.leftChild } else r₃.2) = h₄
              have hlinks₄ : SameLinks r₃.2 h₄ := by
                rw [← hh₄]
                split_ifs
                · exact sameLinks_modify rfl (Or.inr ⟨rfl, rfl⟩)
                · exact .refl _
              split
              · exact (hlinks.trans hlinks₄).trans (sameLinks_modify rfl (Or.inl ⟨rfl, rfl⟩))
              · exact rfl

/-- The pass over the trees throws nothing and keeps the links. -/
theorem orderSubtrees_links (terminalToLabel : Ptr → Option Label) (numberOfEntries fuel : ℕ) (roots : List Ptr)
    (h : Nodes) : NoException (SameLinks h) (orderSubtrees terminalToLabel numberOfEntries fuel roots h) := by
  induction roots generalizing h with
  | nil => exact SameLinks.refl h
  | cons root roots ih =>
      refine (orderSubtree_links terminalToLabel numberOfEntries fuel (some root) h).bind fun r hr => ?_
      exact (ih r.2).mono fun h' h₂ => SameLinks.trans hr h₂

/-- **What `ReadNewick` returns after its loops.** -/
theorem sort_links (σ : Reader) : NoException (fun s => SameLinks σ.nodes s.nodes ∧ (∀ q, q ∈ s.roots → q ∈ σ.roots) ∧
    s.terminalToLabel = σ.terminalToLabel ∧ s.labelToTerminal = σ.labelToTerminal)
    (sortChildrenAndCollectTerminals σ) := by
  rw [sortChildrenAndCollectTerminals]
  cases σ.labels.max? with
  | none => exact rfl
  | some maxLabel => exact (orderSubtrees_links _ _ _ _ _).bind fun h' hlinks =>
      ⟨hlinks, fun q hq => (List.perm_insertionSort ..).mem_iff.1 hq, rfl, rfl⟩

/-! ### Texts and forests -/

/-- **A forest that is not broken**: every node has no child and a label, or two
children and none; the maps are inverse to each other; and the nodes that the roots
reach are a well-formed forest, in which every label that was read stands once. -/
structure Unbroken (numberOfTerminals : ℕ) (read : List Label) (s : Store) (size : ℕ) : Prop where
  bounded : size ≤ 2 * numberOfTerminals - 1
  binary : ∀ q < size,
    (s.nodes q).leftChild = none ∧ (s.nodes q).rightChild = none ∧ (s.terminalToLabel q).isSome = true ∨
      (s.nodes q).leftChild.isSome = true ∧ (s.nodes q).rightChild.isSome = true ∧ s.terminalToLabel q = none
  inverse : ∀ p x, s.labelToTerminal x = some p ↔ s.terminalToLabel p = some x
  forest : ∃ width F, Forest.WellFormed width s F ∧ (∀ u ∈ F.subtrees, s.terminalToLabel u.ptr = u.terminalToLabel) ∧
    ∀ x ∈ read, ∃! p, ∃ m, Tree.leaf p x m ∈ F.subtrees

/-- **What `ReadNewick` should do**: it throws, or nothing is wrong with the text and
the forest that it returns is not broken. -/
def KeepsPromise (text : List Char) (numberOfTerminals numberOfTrees : ℕ) : Prop :=
  (∃ what, evalNewick text numberOfTerminals numberOfTrees = .error (.exception what)) ∨
    ∃ s size ess, evalNewick text numberOfTerminals numberOfTrees = .ok (s, size) ∧
      lexTrees numberOfTrees (Newick.lines text) = .ok ess ∧
      Unbroken numberOfTerminals (ess.flatMap terminals) s size ∧ Sound numberOfTerminals ess

/-- **From the forest back to the text**: each tree is one topology. -/
theorem exists_topologies {ess : List (List Event)} {n : ℕ} {s : Store}
    (hs : sortChildrenAndCollectTerminals (({} : Reader).trees ess) = .ok s)
    (hU : Unbroken n (ess.flatMap terminals) s (({} : Reader).trees ess).size) (hS : Sound n ess)
    (hnode : ∀ es ∈ ess, es.all (· = .close) = false) : ∃ ts : List Shape, ess = ts.map Shape.events := by
  have hlinks := sort_links (({} : Reader).trees ess)
  rw [hs] at hlinks
  obtain ⟨hlinks, hroots, hlab, hterm⟩ := hlinks
  have each : ∀ es ∈ ess, ∃ t : Shape, es = t.events := by
    intro es hes
    obtain ⟨pre, post, rfl⟩ := List.append_of_mem hes
    have hsolid : Solid es := by
      rintro fs gs rfl
      obtain ⟨q, hq, hleft, hnone⟩ := Reader.exists_barren pre fs gs post rfl
      rw [← hlab] at hnone
      rcases hU.binary q hq with ⟨-, -, h⟩ | ⟨hl, hr, -⟩
      · rw [hnone] at h
        cases h
      · rcases (hlinks q).2 with ⟨h, -⟩ | ⟨-, h⟩
        · rw [h, hleft] at hl
          cases hl
        · rw [h, hleft] at hr
          cases hr
    obtain ⟨items, rfl⟩ := Newick.parsed_of_nested (hS.nested es hes) hsolid
    match items with
    | [] => exact absurd (hnode _ hes) (by simp)
    | [t] => exact ⟨t, by simp⟩
    | a :: b :: items =>
        rw [List.flatMap_cons, List.flatMap_cons] at *
        obtain ⟨D, p, hp, ⟨x, hx, hxp⟩, hD⟩ := Reader.exists_apart pre a b _ post hS.distinct rfl
        have hread : x ∈ (pre ++ (a.events ++ (b.events ++ items.flatMap Shape.events)) :: post).flatMap terminals := by
          simp [Newick.terminals_append, Newick.mem_terminals_events.2 hx]
        obtain ⟨width, F, hF, hFlab, hreach⟩ := hU.forest
        obtain ⟨p', ⟨m, hm⟩, -⟩ := hreach x hread
        -- the terminal of the label is in the forest
        have hp' : p' = p := by
          have h := (hU.inverse p' x).2 (hFlab _ hm)
          rw [hterm, hxp] at h
          exact (Option.some.inj h).symm
        obtain ⟨t, ht, hmt⟩ := Forest.mem_subtrees.1 hm
        have hroot : t.ptr ∈ D := (hF.stored.trees t ht).root_mem
          (fun q hq q' hq' => (hD q hq).2.2 q' ((hlinks q).1 ▸ hq')) (Tree.ptr_mem_ptrs hmt) (hp' ▸ hp)
        refine absurd (hroots _ ?_) (hD _ hroot).2.1
        rw [hF.stored.roots]
        exact List.mem_map_of_mem ht
  clear hs hU hS hnode hlinks hroots hlab hterm
  induction ess with
  | nil => exact ⟨[], rfl⟩
  | cons es ess ih =>
      obtain ⟨t, rfl⟩ := each es (List.mem_cons_self ..)
      obtain ⟨ts, rfl⟩ := ih fun es hes => each es (List.mem_cons_of_mem _ hes)
      exact ⟨t :: ts, rfl⟩

/-- A forest of topologies is not broken. -/
theorem unbroken_of_fresh {ts : List Shape} {s : Store} {width n : ℕ} (hts : Shape.AllDistinct ts) (hne : ts ≠ [])
    (hcard : (ts.map fun t => t.labels.card).sum ≤ n) (hG : (sorted ts).Fresh width s) :
    Unbroken n ((ts.map Shape.events).flatMap terminals) s (Shape.sizes ts) := by
  obtain ⟨hwf, hm, -⟩ := hG
  have hcount := sizes_add_length hts.1
  have hpos : 0 < ts.length := List.length_pos_iff.2 hne
  have hlab : ∀ u ∈ (sorted ts).subtrees, s.terminalToLabel u.ptr = u.terminalToLabel := by
    intro u hu
    cases u with
    | leaf p x m => exact (hm.terminalToLabel p x).2 ⟨m, hu⟩
    | node p l r =>
        refine Option.eq_none_iff_forall_ne_some.2 fun x hx => ?_
        obtain ⟨m, hm⟩ := (hm.terminalToLabel p x).1 hx
        exact absurd (Forest.eq_of_ptr_eq hwf.valid.nodup hm hu rfl) (by simp)
  refine ⟨by omega, fun q hq => ?_, fun p x => (hm.labelToTerminal p x).trans (hm.terminalToLabel p x).symm,
    ⟨width, sorted ts, hwf, hlab, fun x hx => ?_⟩⟩
  · have hmem : q ∈ Forest.ptrs (sorted ts) := by
      have hperm : (Forest.ptrs (sorted ts)).Perm _ := (sorted_perm ts).flatMap_right Tree.ptrs
      rw [(hperm.trans (Shape.ptrs_row Shape.ptrs_place 0 ts)).mem_iff, List.mem_range'_1]
      exact ⟨Nat.zero_le _, by rwa [Nat.zero_add]⟩
    rw [← Forest.map_ptr_subtrees] at hmem
    obtain ⟨u, hu, rfl⟩ := List.mem_map.1 hmem
    obtain ⟨t, ht, hut⟩ := Forest.mem_subtrees.1 hu
    obtain ⟨par, sib, hst⟩ := (hwf.stored.trees t ht).of_mem hut
    rw [hlab u hu, hst.root]
    cases u with
    | leaf => exact Or.inl ⟨rfl, rfl, rfl⟩
    | node => exact Or.inr ⟨rfl, rfl, rfl⟩
  · have hxF : x ∈ Forest.labels (sorted ts) := by
      obtain ⟨es, hes, hx⟩ := List.mem_flatMap.1 hx
      obtain ⟨t, ht, rfl⟩ := List.mem_map.1 hes
      obtain ⟨v, hv, hxv⟩ := Forest.mem_labels.1
        ((Shape.labels_row 0 ts).2 ⟨t, ht, Newick.mem_terminals_events.1 hx⟩)
      exact Forest.mem_labels.2 ⟨v, (sorted_perm ts).mem_iff.2 hv, hxv⟩
    obtain ⟨p, m, hp⟩ := Forest.exists_leaf hxF
    refine ⟨p, ⟨m, hp⟩, fun q hq => ?_⟩
    have h₁ := (hm.labelToTerminal p x).2 ⟨m, hp⟩
    have h₂ := (hm.labelToTerminal q x).2 hq
    rw [h₁] at h₂
    exact (Option.some.inj h₂).symm

/-- What is evaluated is read. -/
theorem readNewick_of_eval {text : List Char} {n r : ℕ} {p : Store × ℕ} (h : evalNewick text n r = .ok p) :
    readNewick text n r = .ok p := by
  rw [evalNewick] at h
  cases hread : readNewick text n r with
  | error e =>
      rw [hread] at h
      cases h
  | ok q =>
      rw [hread] at h
      simp only [bind, Except.bind] at h
      split_ifs at h
      exact h

/-- What is refused is refused before the roots are sorted. -/
theorem readNewick_of_eval_exception {text : List Char} {n r : ℕ} {what : String}
    (h : evalNewick text n r = .error (.exception what)) : readNewick text n r = .error (.exception what) := by
  rw [evalNewick] at h
  cases hread : readNewick text n r with
  | error e =>
      rw [hread] at h
      exact h
  | ok q =>
      rw [hread] at h
      simp only [bind, Except.bind] at h
      split_ifs at h
      cases h

/-- What is not defined keeps no promise. -/
theorem not_keepsPromise_of_undefined {text : List Char} {n r : ℕ} (h : readNewick text n r = .error .undefined) :
    ¬KeepsPromise text n r := by
  have heval : evalNewick text n r = .error .undefined := by
    rw [evalNewick, h]
    rfl
  rintro (⟨what, h'⟩ | ⟨s, size, ess, h', -⟩)
  · rw [heval] at h'
    cases h'
  · rw [heval] at h'
    cases h'

/-- After its loops `ReadNewick` throws nothing. -/
theorem not_exception {text : List Char} {n r : ℕ} (hn : 0 < n) (hn' : n < 2 ^ 30) {ess : List (List Event)}
    (hlex : lexTrees r (Newick.lines text) = .ok ess) (what : String) :
    readNewick text n r ≠ .error (.exception what) := by
  intro h
  have hsort := sort_links (({} : Reader).trees ess)
  rw [readNewick_eq text r hn hn', hlex] at h
  simp only [bind, Except.bind] at h
  split_ifs at h
  · cases h
  · cases hres : sortChildrenAndCollectTerminals (({} : Reader).trees ess) with
    | error e =>
        rw [hres] at h hsort
        rw [show e = .undefined from hsort] at h
        cases h
    | ok s =>
        rw [hres] at h
        cases h
  · cases h

/-- A text that is read to its end is read to no purpose when something is wrong with
it. -/
theorem not_keepsPromise {text : List Char} {n r : ℕ} (hn : 0 < n) (hn' : n < 2 ^ 30) {ess : List (List Event)}
    (hlex : lexTrees r (Newick.lines text) = .ok ess) (hS : ¬Sound n ess) : ¬KeepsPromise text n r := by
  rintro (⟨what, h⟩ | ⟨s, size, ess', -, hess', -, h⟩)
  · exact not_exception hn hn' hlex what (readNewick_of_eval_exception h)
  · rw [hlex] at hess'
    exact hS (Except.ok.inj hess' ▸ h)

/-- With `2 ^ 30` or more terminals nothing is promised. -/
theorem readNewick_overflow (text : List Char) {n : ℕ} (r : ℕ) (hn : 2 ^ 30 ≤ n) :
    readNewick text n r = .error .undefined := by
  rw [readNewick, if_neg (by omega), if_pos (by omega)]

/-- **A text that is refused**: the promise is kept when nothing was written before
through a pointer that is not valid. -/
theorem keepsPromise_refused {text : List Char} {n r : ℕ} (hn : 0 < n) (hn' : n < 2 ^ 30) {what : String}
    (hlex : lexTrees r (Newick.lines text) = .error (.exception what)) :
    KeepsPromise text n r ↔ Stable (2 * n - 1) (seenTrees r (Newick.lines text)) := by
  have heq := readNewick_eq text r hn hn'
  rw [hlex] at heq
  split_ifs at heq with hstable
  · refine iff_of_true (Or.inl ⟨what, ?_⟩) hstable
    rw [evalNewick, heq]
    rfl
  · exact iff_of_false (not_keepsPromise_of_undefined heq) hstable

/-- **Topologies keep the promise** if and only if the smallest labels of all trees
lie in one word. -/
theorem evalNewick_topologies {ts : List Shape} {text : List Char} {n r : ℕ} (hn : 0 < n) (hn' : n < 2 ^ 30)
    (hr : 0 < r) (hlex : lexTrees r (Newick.lines text) = .ok (ts.map Shape.events)) (hts : Shape.AllDistinct ts)
    (hpos : ∀ t ∈ ts, 0 ∉ t.labels) (hcard : (ts.map fun t => t.labels.card).sum ≤ n) :
    ∃ s width, evalNewick text n r = (if ∀ t ∈ ts, ∀ u ∈ ts, wordOf t.least = wordOf u.least then
      .ok (s, Shape.sizes ts) else .error .undefined) ∧ (sorted ts).Fresh width s ∧ ts ≠ [] := by
  have hlexed := Newick.lexTrees_lexed r (Newick.lines text)
  rw [hlex] at hlexed
  obtain ⟨hlen, hess⟩ := hlexed
  have hne : ts ≠ [] := by
    rintro rfl
    exact hr.ne hlen
  have hlab : ∀ t ∈ ts, ∀ x ∈ t.labels, 0 < x ∧ x < 2 ^ 31 := fun t ht x hx =>
    ⟨Nat.pos_of_ne_zero fun h => hpos t ht (h ▸ hx),
      (hess _ (List.mem_map_of_mem ht)).1 x (Newick.mem_terminals_events.2 hx)⟩
  have hcount := sizes_add_length hts.1
  have hlength : 0 < ts.length := List.length_pos_iff.2 hne
  obtain ⟨s, width, hread, hG⟩ := readNewick_events hts hne hlab hn hn' (by omega) hlex
  refine ⟨s, width, ?_, hG, hne⟩
  rw [evalNewick_eq hread hG.wellFormed]
  simp only [oneWord_sorted]

/-- **What `ReadNewick` does with a malformed text.**  It keeps its promise if and
only if there are less than `2 ^ 30` terminals, and either the text is refused before
its end (for a symbol, a number or a tree without a node) and until then no node was
put into a clade from before a move of the vector, or every tree is one binary
topology, with at most `n` labels in all, all different and from `1` on, and the
smallest labels of all trees lie in one word of 64 labels. -/
theorem readNewick_keepsPromise_iff (text : List Char) (n r : ℕ) (hn : 0 < n) (hr : 0 < r) :
    KeepsPromise text n r ↔ n < 2 ^ 30 ∧
      ((∃ e, lexTrees r (Newick.lines text) = .error e) ∧ Stable (2 * n - 1) (seenTrees r (Newick.lines text)) ∨
        ∃ ts : List Shape, lexTrees r (Newick.lines text) = .ok (ts.map Shape.events) ∧ Shape.AllDistinct ts ∧
          (∀ t ∈ ts, 0 ∉ t.labels) ∧ (ts.map fun t => t.labels.card).sum ≤ n ∧
          ∀ t ∈ ts, ∀ u ∈ ts, wordOf t.least = wordOf u.least) := by
  by_cases hbig : n < 2 ^ 30
  swap
  · exact iff_of_false (not_keepsPromise_of_undefined (readNewick_overflow text r (not_lt.1 hbig))) fun h => hbig h.1
  have hlexed := Newick.lexTrees_lexed r (Newick.lines text)
  simp only [hbig, true_and]
  cases hlex : lexTrees r (Newick.lines text) with
  | error e =>
      rw [hlex] at hlexed
      obtain ⟨what, rfl⟩ := hlexed
      rw [keepsPromise_refused hn hbig hlex]
      simp
  | ok ess =>
      rw [hlex] at hlexed
      obtain ⟨-, hess⟩ := hlexed
      constructor
      · rintro (⟨what, h⟩ | ⟨s, size, ess', h, hess', hU, hS⟩)
        · exact absurd (readNewick_of_eval_exception h) (not_exception hn hbig hlex what)
        · rw [hlex] at hess'
          obtain rfl := Except.ok.inj hess'
          have heq := readNewick_eq text r hn hbig
          rw [readNewick_of_eval h, hlex] at heq
          simp only [bind, Except.bind] at heq
          split_ifs at heq
          cases hres : sortChildrenAndCollectTerminals (({} : Reader).trees ess) with
          | error e =>
              rw [hres] at heq
              cases heq
          | ok s' =>
              rw [hres] at heq
              obtain ⟨rfl, rfl⟩ := Prod.mk.inj (Except.ok.inj heq)
              obtain ⟨ts, rfl⟩ := exists_topologies hres hU hS fun es hes => (hess es hes).2
              obtain ⟨hts, hpos, hcard⟩ := Newick.sound_events_iff.1 hS
              obtain ⟨s', width, heval, -⟩ := evalNewick_topologies hn hbig hr hlex hts hpos hcard
              rw [h] at heval
              split_ifs at heval with hword
              exact Or.inr ⟨ts, rfl, hts, hpos, hcard, hword⟩
      · rintro (⟨⟨e, h⟩, -⟩ | ⟨ts, h, hts, hpos, hcard, hword⟩)
        · cases h
        · obtain rfl := Except.ok.inj h
          obtain ⟨s, width, heval, hG, hne⟩ := evalNewick_topologies hn hbig hr hlex hts hpos hcard
          rw [if_pos hword] at heval
          exact Or.inr ⟨s, _, _, heval, hlex, unbroken_of_fresh hts hne hcard hG,
            Newick.sound_events_iff.2 ⟨hts, hpos, hcard⟩⟩

/-- The text of a cherry, and a text that is refused. -/
theorem readNewick_keepsPromise_iff_cherry :
    KeepsPromise ['(', '2', ',', '1', ')', ';'] 2 1 ∧ KeepsPromise ['(', '1', ',', 'x'] 2 1 :=
  ⟨(readNewick_keepsPromise_iff ['(', '2', ',', '1', ')', ';'] 2 1 (by decide) (by decide)).2
      ⟨by decide, Or.inr ⟨[.join (.tip 2) (.tip 1)], by decide, by simp [Shape.AllDistinct, Shape.Distinct], by decide,
        by decide, by decide⟩⟩,
    (readNewick_keepsPromise_iff ['(', '1', ',', 'x'] 2 1 (by decide) (by decide)).2
      ⟨by decide, Or.inl ⟨⟨.exception "TreeIO : ReadNewick : unexpected symbol", by decide⟩, by decide⟩⟩⟩

/-- **A clade that is not closed** is accepted, and so is one with three children.
The trees `1` and `65` have no defined order, a clade that has moved is written to
before the symbol `x` is refused, and `2 ^ 30` terminals are too many. -/
theorem exists_malformed_accepted :
    ¬KeepsPromise ['(', '1', ',', '2', ';'] 2 1 ∧ ¬KeepsPromise ['(', '1', ',', '2', ',', '3', ')', ';'] 3 1 ∧
      ¬KeepsPromise ['1', ';', '\n', '6', '5', ';', '\n'] 2 2 ∧ ¬KeepsPromise ['(', '1', ',', '2', ',', 'x'] 1 1 ∧
      ¬KeepsPromise ['1', ';'] (2 ^ 30) 1 := by
  have hopen : lexTrees 1 (Newick.lines ['(', '1', ',', '2', ';']) =
      .ok [[.clade, .terminal 1, .terminal 2]] := by decide
  have hthree : lexTrees 1 (Newick.lines ['(', '1', ',', '2', ',', '3', ')', ';']) =
      .ok [[.clade, .terminal 1, .terminal 2, .terminal 3, .close]] := by decide
  have hlate : lexTrees 1 (Newick.lines ['(', '1', ',', '2', ',', 'x']) =
      .error (.exception "TreeIO : ReadNewick : unexpected symbol") := by decide
  refine ⟨not_keepsPromise (by decide) (by decide) hopen fun hS => ?_,
    not_keepsPromise (by decide) (by decide) hthree fun hS => ?_, ?_, fun h => ?_,
    not_keepsPromise_of_undefined (readNewick_overflow _ 1 le_rfl)⟩
  · exact absurd (hS.nested _ (List.mem_singleton_self _)) (by decide)
  · exact absurd (hS.nested _ (List.mem_singleton_self _)) (by decide)
  · rintro (⟨what, h⟩ | ⟨s, size, ess, h, -⟩)
    · rw [evalNewick_twoTerminals] at h
      cases h
    · rw [evalNewick_twoTerminals] at h
      cases h
  · exact absurd ((keepsPromise_refused (by decide) (by decide) hlate).1 h) (by decide)

end Graph
end Maf
