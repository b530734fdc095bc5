/-
# What `ReadNewick` builds

The machine on characters does what the events of the text tell it, up to where a
pointer that it needs is not valid any more (`readTrees_eq`).  The events of a
topology build the topology at the next free addresses, below the clade that is open
and beside its first child (`built_events`).  Nothing is compared on the way; the pass that `readNewick` ends
with reads `__builtin_ctzll(0)` as `64` (`Bitset.ctz`).
-/

import Maf.Graph.ForestIO

namespace Maf
namespace Graph

open Newick (Event Failure lexLabel lexLine lexTree lexTrees seenLabel seenLine seenTree seenTrees)

namespace Reader

/-- What an event does. -/
def step (σ : Reader) : Event → Reader
  | .clade => σ.clade
  | .terminal lab => { (σ.addTerminal lab).2 with sibling := some σ.size }
  | .close => σ.close

/-- What the events of a list do. -/
def steps (σ : Reader) (es : List Event) : Reader := es.foldl step σ

/-- No event does nothing. -/
@[simp] theorem steps_nil (σ : Reader) : σ.steps [] = σ := rfl

/-- The first event comes first. -/
@[simp] theorem steps_cons (σ : Reader) (e : Event) (es : List Event) : σ.steps (e :: es) = (σ.step e).steps es := rfl

/-- Two lists of events after each other. -/
theorem steps_append (σ : Reader) (es fs : List Event) : σ.steps (es ++ fs) = (σ.steps es).steps fs :=
  List.foldl_append

/-- Every node that the events make can be made. -/
def safe (σ : Reader) : List Event → Bool
  | [] => true
  | e :: es => (decide (e = .close) || !σ.dangles) && (σ.step e).safe es

/-- One list of events after another. -/
theorem safe_append (σ : Reader) (es fs : List Event) : σ.safe (es ++ fs) = (σ.safe es && (σ.steps es).safe fs) := by
  induction es generalizing σ with
  | nil => rfl
  | cons e es ih => rw [List.cons_append, safe, safe, ih, steps_cons, Bool.and_assoc]

/-- Without the characters of a label. -/
def clear (σ : Reader) : Reader := { σ with label := [] }

/-- A reader without a pending label. -/
theorem clear_of_label {σ : Reader} (h : σ.label = []) : σ.clear = σ := by
  cases σ
  cases h
  rfl

/-- An event does not look at the pending label. -/
theorem clear_step (σ : Reader) (e : Event) : (σ.step e).clear = σ.clear.step e := by
  cases e with
  | clade => rfl
  | terminal lab => rfl
  | close =>
      simp only [step, close, clear]
      cases σ.parentStack <;> rfl

/-- Events do not look at the pending label. -/
theorem clear_steps (σ : Reader) (es : List Event) : (σ.steps es).clear = σ.clear.steps es := by
  induction es generalizing σ with
  | nil => rfl
  | cons e es ih => rw [steps_cons, steps_cons, ih, clear_step]

/-- Clearing twice is clearing once. -/
theorem clear_clear (σ : Reader) : σ.clear.clear = σ.clear := rfl

/-- Events leave no pending label where there is none. -/
theorem label_clear_steps (σ : Reader) (es : List Event) : (σ.clear.steps es).label = [] := by
  rw [← clear_clear, ← clear_steps]
  rfl

/-- Whether nodes can be made does not depend on the pending label. -/
theorem safe_clear (σ : Reader) (es : List Event) : σ.clear.safe es = σ.safe es := by
  induction es generalizing σ with
  | nil => rfl
  | cons e es ih => rw [safe, safe, ← clear_step, ih, show σ.clear.dangles = σ.dangles from rfl]

/-- The node of a pending label. -/
theorem safe_seenLabel {σ : Reader} (h : σ.label ≠ []) : σ.safe (seenLabel σ.label) = !σ.dangles := by
  rw [seenLabel, if_neg h]
  simp [safe]

/-- A label before `,`. -/
theorem separate_eq (σ : Reader) : σ.separate =
    if σ.safe (seenLabel σ.label) then (lexLabel σ.label).map fun es => σ.clear.steps es else .error .undefined := by
  unfold separate
  split_ifs with h hs hs
  · rw [lexLabel, if_pos h]
    exact congrArg Except.ok (clear_of_label h).symm
  · exact absurd (by rw [seenLabel, if_pos h]; rfl) hs
  · rw [safe_seenLabel h, Bool.not_eq_true'] at hs
    rw [emplace, hs, lexLabel, if_neg h]
    cases Newick.stoi σ.label <;> rfl
  · rw [safe_seenLabel h, Bool.not_eq_true', Bool.not_eq_false] at hs
    rw [emplace, hs]
    rfl

/-- A label before `)`. -/
theorem emit_close_eq (σ : Reader) : σ.emit.map close =
    if σ.safe (seenLabel σ.label) then (lexLabel σ.label).map fun es => σ.clear.steps (es ++ [.close])
    else .error .undefined := by
  unfold emit
  split_ifs with h hs hs
  · rw [lexLabel, if_pos h, clear_of_label h]
    rfl
  · exact absurd (by rw [seenLabel, if_pos h]; rfl) hs
  · rw [safe_seenLabel h, Bool.not_eq_true'] at hs
    rw [emplace, hs, lexLabel, if_neg h]
    cases Newick.stoi σ.label with
    | error e => rfl
    | ok lab =>
        refine congrArg Except.ok ?_
        simp only [List.cons_append, List.nil_append, steps_cons, steps_nil, step]
        simp only [close, clear, addTerminal, addNode]
        cases σ.parentStack <;> rfl
  · rw [safe_seenLabel h, Bool.not_eq_true', Bool.not_eq_false] at hs
    rw [emplace, hs]
    rfl

/-- A label before `;`; the sibling is not needed after it. -/
theorem emit_eq (σ : Reader) : σ.emit.map (fun τ => { τ with sibling := none }) =
    if σ.safe (seenLabel σ.label) then (lexLabel σ.label).map fun es => { σ.clear.steps es with sibling := none }
    else .error .undefined := by
  unfold emit
  split_ifs with h hs hs
  · rw [lexLabel, if_pos h, clear_of_label h]
    rfl
  · exact absurd (by rw [seenLabel, if_pos h]; rfl) hs
  · rw [safe_seenLabel h, Bool.not_eq_true'] at hs
    rw [emplace, hs, lexLabel, if_neg h]
    cases Newick.stoi σ.label <;> rfl
  · rw [safe_seenLabel h, Bool.not_eq_true', Bool.not_eq_false] at hs
    rw [emplace, hs]
    rfl

/-- What counts after a line. -/
def settle (r : Reader × Bool) : Reader × Bool :=
  (if r.2 then { r.1.clear with sibling := none } else r.1.clear, r.2)

/-- **The characters of a line do what its events tell**, as long as they are safe. -/
theorem readLine_eq (σ : Reader) (cs : List Char) : (σ.readLine cs).map settle =
    if σ.safe (seenLine σ.label cs) then (lexLine σ.label cs).map fun r => settle (σ.clear.steps r.1, r.2)
    else .error .undefined := by
  induction cs generalizing σ with
  | nil => rfl
  | cons c cs ih =>
      unfold readLine lexLine seenLine
      by_cases h₁ : c = ';'
      · simp only [if_pos h₁]
        have h := σ.emit_eq
        cases he : σ.emit with
        | error e =>
            rw [he] at h
            split_ifs at h ⊢
            · cases hl : lexLabel σ.label <;> rw [hl] at h <;> cases h
              rfl
            · obtain rfl := Except.error.inj h
              rfl
        | ok τ =>
            rw [he] at h
            split_ifs at h ⊢
            · cases hl : lexLabel σ.label with
              | error e =>
                  rw [hl] at h
                  cases h
              | ok es =>
                  rw [hl] at h
                  have h : { τ with sibling := none } = { σ.clear.steps es with sibling := none } := Except.ok.inj h
                  exact congrArg Except.ok (Prod.ext (congrArg clear h) rfl)
            · cases h
      simp only [if_neg h₁]
      by_cases h₂ : c = ','
      · simp only [if_pos h₂, separate_eq]
        cases hl : lexLabel σ.label with
        | error e => split_ifs <;> rfl
        | ok es =>
            rw [Newick.seenLabel_eq hl, safe_append]
            cases hs : σ.safe es with
            | false => rfl
            | true =>
                have h := ih (σ.clear.steps es)
                rw [label_clear_steps, clear_steps, clear_clear, ← clear_steps, safe_clear, clear_steps] at h
                refine h.trans ?_
                simp only [Bool.true_and]
                split_ifs
                · simp only [bind, Except.bind]
                  cases lexLine [] cs with
                  | error e => rfl
                  | ok r => simp [Except.map, steps_append]
                · rfl
      simp only [if_neg h₂]
      by_cases h₃ : c = ')'
      · simp only [if_pos h₃]
        have h := σ.emit_close_eq
        cases hl : lexLabel σ.label with
        | error e =>
            rw [hl] at h
            simp only
            split_ifs at h ⊢
            all_goals
              cases he : σ.emit <;> rw [he] at h <;> cases h
              rfl
        | ok es =>
            have hseen : seenLabel σ.label ++ .close :: seenLine [] cs = (es ++ [.close]) ++ seenLine [] cs := by
              rw [Newick.seenLabel_eq hl, List.append_assoc]
              rfl
            have hclose : σ.safe (es ++ [.close]) = σ.safe es := by
              rw [safe_append]
              simp [safe]
            rw [hl, Newick.seenLabel_eq hl] at h
            simp only [hseen, safe_append σ (es ++ [.close]), hclose]
            cases hs : σ.safe es with
            | false =>
                rw [hs] at h
                cases he : σ.emit <;> rw [he] at h <;> cases h
                rfl
            | true =>
                rw [hs] at h
                cases he : σ.emit with
                | error e =>
                    rw [he] at h
                    cases h
                | ok τ =>
                    rw [he] at h
                    have h : τ.close = σ.clear.steps (es ++ [.close]) := Except.ok.inj h
                    have h' := ih τ.close
                    rw [h, label_clear_steps, clear_steps, clear_clear, ← clear_steps, safe_clear, clear_steps] at h'
                    simp only [bind, Except.bind, h, Bool.true_and]
                    refine h'.trans ?_
                    split_ifs
                    · cases lexLine [] cs with
                      | error e => rfl
                      | ok r => simp [Except.map, steps_append]
                    · rfl
      simp only [if_neg h₃]
      by_cases h₄ : c = '('
      · simp only [if_pos h₄, safe, reduceCtorEq, decide_false, Bool.false_or, emplace]
        cases hd : σ.dangles with
        | true => rfl
        | false =>
            refine (ih σ.clade).trans ?_
            rw [show σ.clade.label = σ.label from rfl]
            simp only [Bool.not_false, Bool.true_and, show σ.step .clade = σ.clade from rfl]
            split_ifs
            · cases lexLine σ.label cs <;> rfl
            · rfl
      simp only [if_neg h₄]
      by_cases h₅ : c.isDigit
      · simp only [if_pos h₅]
        refine (ih _).trans ?_
        rw [← safe_clear, ← safe_clear σ]
        rfl
      · simp only [if_neg h₅]
        rfl

/-- What counts after the lines of a tree. -/
def settleTree (σ : Reader) : Reader := { σ.clear with sibling := none }

/-- **The lines of a tree do what its events tell**, as long as they are safe. -/
theorem readTree_eq (σ : Reader) (ls : List (List Char)) : (σ.readTree ls).map (Prod.map settleTree id) =
    if σ.safe (seenTree ls) then (lexTree ls).map (Prod.map (fun es => settleTree (σ.clear.steps es)) id)
    else .error .undefined := by
  induction ls generalizing σ with
  | nil => rfl
  | cons line rest ih =>
      unfold readTree lexTree seenTree
      by_cases hc : line = [] ∨ line.head? = some '#'
      · simp only [if_pos hc]
        exact ih σ
      simp only [if_neg hc]
      have h := readLine_eq { σ with label := [] } line
      have hlabel : ({ σ with label := [] } : Reader).label = [] := rfl
      rw [hlabel, show ({ σ with label := [] } : Reader).safe _ = _ from safe_clear σ _] at h
      cases hl : lexLine [] line with
      | error e =>
          rw [hl] at h
          simp only
          split_ifs at h ⊢
          all_goals
            cases hr : readLine { σ with label := [] } line <;> rw [hr] at h <;> cases h
            rfl
      | ok r =>
          obtain ⟨es, ended⟩ := r
          rw [hl, Newick.seenLine_eq hl] at h
          simp only [Newick.seenLine_eq hl]
          cases hr : readLine { σ with label := [] } line with
          | error e =>
              rw [hr] at h
              cases hs : σ.safe es with
              | true =>
                  rw [hs] at h
                  cases h
              | false =>
                  rw [hs] at h
                  obtain rfl : e = .undefined := Except.error.inj h
                  cases ended with
                  | true => simp only [hs]; rfl
                  | false => simp only [safe_append, hs]; rfl
          | ok q =>
              rw [hr] at h
              obtain ⟨τ, ended'⟩ := q
              cases hs : σ.safe es with
              | false =>
                  rw [hs] at h
                  cases h
              | true =>
                  rw [hs] at h
                  obtain ⟨hτ, hended⟩ := Prod.ext_iff.1 (Except.ok.inj h)
                  obtain rfl : ended' = ended := hended
                  cases ended' with
                  | true =>
                      simp only [hs, if_true]
                      exact congrArg Except.ok (Prod.ext hτ rfl)
                  | false =>
                      have hτ : τ.clear = σ.clear.steps es := by
                        refine (show τ.clear = (σ.clear.steps es).clear from hτ).trans ?_
                        rw [clear_steps, clear_clear]
                      have hsafe : τ.safe (seenTree rest) = (σ.steps es).safe (seenTree rest) := by
                        rw [← safe_clear τ, hτ, ← clear_steps, safe_clear]
                      simp only [bind, Except.bind, Bool.false_eq_true, if_false, safe_append, hs, Bool.true_and]
                      refine (ih τ).trans ?_
                      rw [hτ, hsafe]
                      split_ifs
                      · cases lexTree rest with
                        | error e => rfl
                        | ok r => simp [Except.map, steps_append, Prod.map]
                      · rfl

/-- The lines at `endTree` when there is a root. -/
def finish (σ : Reader) : Reader :=
  { σ with roots := σ.roots ++ σ.currentRoot.toList, parentStack := [], sibling := none }

/-- The end of a tree that has a node. -/
theorem endTree_eq {σ : Reader} {root : Ptr} (h : σ.currentRoot = some root) : σ.endTree = .ok σ.finish := by
  rw [endTree, finish, h]
  rfl

/-- The end of a tree depends on what counts. -/
theorem finish_congr {σ τ : Reader} (h : settleTree σ = settleTree τ) : σ.finish.clear = τ.clear.finish :=
  congrArg finish h

/-- What the events of a tree do. -/
def tree (σ : Reader) (es : List Event) : Reader := ({ σ with currentRoot := none }.steps es).finish

/-- What the events of some trees do. -/
def trees (σ : Reader) (ess : List (List Event)) : Reader := ess.foldl tree σ

/-- Every node that the events of some trees make can be made. -/
def safeTrees (σ : Reader) : List (List Event) → Bool
  | [] => true
  | es :: ess => ({ σ with currentRoot := none } : Reader).safe es && (σ.tree es).safeTrees ess

/-- A tree does not look at a label that is pending before it. -/
theorem clear_tree (σ : Reader) (es : List Event) : (σ.tree es).clear = σ.clear.tree es :=
  congrArg finish (clear_steps _ es)

/-- Whether nodes can be made does not depend on the pending label. -/
theorem safeTrees_clear (σ : Reader) (ess : List (List Event)) : σ.clear.safeTrees ess = σ.safeTrees ess := by
  induction ess generalizing σ with
  | nil => rfl
  | cons es ess ih => rw [safeTrees, safeTrees, ← clear_tree, ih, ← safe_clear { σ with currentRoot := none }]; rfl

/-- An event leaves a tree without a node only where there is none and none is made. -/
theorem currentRoot_step (σ : Reader) (e : Event) :
    (σ.step e).currentRoot = none ↔ σ.currentRoot = none ∧ e = .close := by
  cases e with
  | clade =>
      simp only [step, clade, addNode]
      split_ifs with h <;> simp [h]
  | terminal lab =>
      simp only [step, addTerminal, addNode]
      split_ifs with h <;> simp [h]
  | close =>
      simp only [step, close]
      cases σ.parentStack <;> simp

/-- A tree has no node only if all its events close a clade. -/
theorem currentRoot_steps (σ : Reader) (es : List Event) :
    (σ.steps es).currentRoot = none ↔ σ.currentRoot = none ∧ es.all (· = .close) = true := by
  induction es generalizing σ with
  | nil => simp
  | cons e es ih => rw [steps_cons, ih, currentRoot_step, List.all_cons, Bool.and_eq_true, decide_eq_true_iff,
      and_assoc]

/-- **The characters of a text do what the events of its trees tell**, as long as
they are safe. -/
theorem readTrees_eq (n : ℕ) (σ : Reader) (ls : List (List Char)) : (readTrees n σ ls).map clear =
    if σ.safeTrees (seenTrees n ls) then (lexTrees n ls).map σ.clear.trees else .error .undefined := by
  induction n generalizing σ ls with
  | zero => rfl
  | succ n ih =>
      unfold readTrees lexTrees seenTrees
      have h := readTree_eq { σ with currentRoot := none } ls
      rw [safeTrees]
      cases hs : ({ σ with currentRoot := none } : Reader).safe (seenTree ls) with
      | false =>
          rw [hs] at h
          cases hr : readTree { σ with currentRoot := none } ls <;> rw [hr] at h <;> cases h
          rfl
      | true =>
          rw [hs] at h
          simp only [Bool.true_and]
          cases hl : lexTree ls with
          | error e =>
              rw [hl] at h
              cases hr : readTree { σ with currentRoot := none } ls <;> rw [hr] at h <;> cases h
              rfl
          | ok r =>
              rw [hl] at h
              cases hr : readTree { σ with currentRoot := none } ls with
              | error e =>
                  rw [hr] at h
                  cases h
              | ok q =>
                  rw [hr] at h
                  obtain ⟨es, rest⟩ := r
                  obtain ⟨τ, rest'⟩ := q
                  obtain ⟨hτ, hrest⟩ := Prod.ext_iff.1 (Except.ok.inj h)
                  obtain rfl : rest' = rest := hrest
                  have hτ : settleTree τ = settleTree (({ σ with currentRoot := none } : Reader).clear.steps es) := hτ
                  have hroot : τ.settleTree.currentRoot =
                      (({ σ with currentRoot := none } : Reader).clear.steps es).settleTree.currentRoot := by rw [hτ]
                  have hiff := currentRoot_steps ({ σ with currentRoot := none } : Reader).clear es
                  rw [show (({ σ with currentRoot := none } : Reader).clear.steps es).currentRoot = τ.currentRoot from
                    hroot.symm] at hiff
                  simp only [bind, Except.bind, Newick.seenTree_eq hl]
                  cases hall : es.all (· = .close) with
                  | true =>
                      rw [endTree, hiff.2 ⟨rfl, hall⟩]
                      rfl
                  | false =>
                      obtain ⟨root, hr⟩ : ∃ root, τ.currentRoot = some root := by
                        refine Option.ne_none_iff_exists'.1 fun hn => ?_
                        rw [(hiff.1 hn).2] at hall
                        cases hall
                      have hend : τ.finish.clear = σ.clear.tree es := by
                        rw [finish_congr hτ, clear_steps, clear_clear]
                        rfl
                      have hsafe : τ.finish.safeTrees (seenTrees n rest') =
                          (σ.tree es).safeTrees (seenTrees n rest') := by
                        rw [← safeTrees_clear, hend, ← clear_tree, safeTrees_clear]
                      rw [endTree_eq hr]
                      simp only [Bool.false_eq_true, if_false]
                      refine (ih _ rest').trans ?_
                      rw [hend, hsafe]
                      split_ifs
                      · cases lexTrees n rest' <;> rfl
                      · rfl

/-! ### The events of a topology -/

/-- What all states of the reader keep. -/
structure Tidy (σ : Reader) : Prop where
  fresh : ∀ q, σ.size ≤ q → σ.terminalToLabel q = none
  keys : ∀ x, (σ.labelToTerminal x).isSome = true ↔ x ∈ σ.labels
  stack : ∀ q ∈ σ.parentStack, q < σ.size
  sibling : ∀ q, σ.sibling = some q → q < σ.size

/-- An old node after `addNode`: the clade that is open gets a child, and the
previous child a sibling. -/
def attach (σ : Reader) (q : Ptr) (n : Node) : Node :=
  { n with
    leftChild := if σ.parentStack.head? = some q ∧ σ.sibling = none then some σ.size else n.leftChild
    rightChild := if σ.parentStack.head? = some q ∧ σ.sibling ≠ none then some σ.size else n.rightChild
    sibling := if σ.parentStack ≠ [] ∧ σ.sibling = some q then some σ.size else n.sibling }

/-- What a new node looks like. -/
theorem addNode_nodes {σ : Reader} (hσ : σ.Tidy) (q : Ptr) : (σ.addNode.2).nodes q =
    if q = σ.size then
      { parent := σ.parentStack.head?, sibling := if σ.parentStack = [] then none else σ.sibling }
    else σ.attach q (σ.nodes q) := by
  have hsib := hσ.sibling
  have hstack := hσ.stack
  unfold addNode attach
  cases hs : σ.parentStack with
  | nil => simp [Nodes.modify_apply]
  | cons top stack =>
      have htop := hstack top (by rw [hs]; exact List.mem_cons_self ..)
      have hne : σ.size ≠ top := fun he => lt_irrefl σ.size (he ▸ htop)
      cases hb : σ.sibling with
      | none =>
          simp only [Nodes.setParent, Nodes.setLeftChild, Nodes.modify_apply, List.head?_cons]
          by_cases hq : q = σ.size
          · subst hq
            simp [hne]
          · by_cases hqt : q = top
            · simp [hqt, hne.symm]
            · simp [hq, hqt, Ne.symm hqt]
      | some b =>
          have hnb : σ.size ≠ b := fun he => lt_irrefl σ.size (he ▸ hsib b hb)
          simp only [Nodes.setParent, Nodes.setRightChild, Nodes.setSibling, Nodes.modify_apply, List.head?_cons]
          by_cases hq : q = σ.size
          · subst hq
            simp [hne, hnb]
          · by_cases hqt : q = top <;> by_cases hqb : q = b
            · simp [hqt, ← hqb, hne.symm]
            · subst hqt
              simp [hq, hqb, Ne.symm hqb]
            · subst hqb
              simp [hq, hqt, Ne.symm hqt]
            · simp [hq, hqb, hqt, Ne.symm hqt, Ne.symm hqb]

/-- **The topology `t` has been read**, at the addresses from `σ.size` on. -/
structure Built (σ τ : Reader) (t : Shape) : Prop where
  tidy : τ.Tidy
  size : τ.size = σ.size + t.size
  parentStack : τ.parentStack = σ.parentStack
  sibling : τ.sibling = some σ.size
  roots : τ.roots = σ.roots
  currentRoot : τ.currentRoot = some (σ.currentRoot.getD σ.size)
  stored : (t.build σ.size).Stored 0 τ.nodes σ.parentStack.head?
    (if σ.parentStack = [] then none else σ.sibling)
  frame : ∀ q < σ.size, τ.nodes q = σ.attach q (σ.nodes q)
  terminalToLabel : ∀ u ∈ (t.build σ.size).subtrees, τ.terminalToLabel u.ptr = u.terminalToLabel
  terminalToLabel_old : ∀ q < σ.size, τ.terminalToLabel q = σ.terminalToLabel q
  labelToTerminal : ∀ p x m, Tree.leaf p x m ∈ (t.build σ.size).subtrees → τ.labelToTerminal x = some p
  labelToTerminal_old : ∀ x ∉ t.labels, τ.labelToTerminal x = σ.labelToTerminal x
  labels : ∀ x, x ∈ τ.labels ↔ x ∈ t.labels ∨ x ∈ σ.labels

/-- The root is set once. -/
theorem currentRoot_getD (o : Option Ptr) (p : Ptr) : (if o = none then some p else o) = some (o.getD p) := by
  cases o <;> rfl

/-- Opening a clade keeps the reader tidy. -/
theorem tidy_clade {σ : Reader} (hσ : σ.Tidy) : σ.clade.Tidy := by
  refine ⟨fun q hq => hσ.fresh q (Nat.le_of_succ_le hq), hσ.keys, fun q hq => ?_, fun q hq => by cases hq⟩
  rcases List.mem_cons.1 hq with rfl | hq
  · exact Nat.lt_succ_self _
  · exact (hσ.stack q hq).trans (Nat.lt_succ_self _)

/-- A label is read. -/
theorem built_tip {σ : Reader} (hσ : σ.Tidy) {x : Label} (hx : x ∉ σ.labels) :
    Built σ (σ.steps (Shape.tip x).events) (.tip x) := by
  have hkey : (σ.labelToTerminal x).isSome = false := by
    rw [Bool.eq_false_iff]
    exact fun h => hx ((hσ.keys x).1 h)
  have hnew : (σ.terminalToLabel σ.size).isSome = false := by rw [hσ.fresh _ le_rfl]; rfl
  have hτ : σ.steps (Shape.tip x).events = { σ.addNode.2 with
      terminalToLabel := Function.update σ.terminalToLabel σ.size (some x)
      labelToTerminal := Function.update σ.labelToTerminal x (some σ.size)
      labels := x :: σ.labels
      label := []
      sibling := some σ.size } := by
    simp only [Shape.events, steps_cons, steps_nil, step, addTerminal]
    rw [show σ.addNode.2.terminalToLabel = σ.terminalToLabel from rfl,
      show σ.addNode.2.labelToTerminal = σ.labelToTerminal from rfl, show σ.addNode.1 = σ.size from rfl, hkey, hnew]
    rfl
  rw [hτ]
  refine ⟨⟨fun q hq => ?_, fun y => ?_, fun q hq => ?_, fun q hq => ?_⟩, rfl, rfl, rfl, rfl, ?_, ?_, fun q hq => ?_,
    fun u hu => ?_, fun q hq => ?_, fun p y m h => ?_, fun y hy => ?_, fun y => ?_⟩
  · have hlt : σ.size < q := hq
    dsimp only
    rw [Function.update_of_ne hlt.ne', hσ.fresh q hlt.le]
  · dsimp only
    rw [List.mem_cons]
    by_cases hy : y = x
    · simp [hy]
    · rw [Function.update_of_ne hy, hσ.keys y]
      simp [hy]
  · exact (hσ.stack q hq).trans (Nat.lt_succ_self _)
  · rw [← Option.some.inj hq]
    exact Nat.lt_succ_self _
  · exact currentRoot_getD ..
  · refine (addNode_nodes hσ σ.size).trans ?_
    rw [if_pos rfl]
    rfl
  · exact (addNode_nodes hσ q).trans (if_neg hq.ne)
  · rw [List.mem_singleton.1 hu]
    exact Function.update_self ..
  · exact Function.update_of_ne hq.ne ..
  · obtain ⟨rfl, rfl, -⟩ := Tree.leaf.inj (List.mem_singleton.1 h)
    exact Function.update_self ..
  · exact Function.update_of_ne (by simpa using hy) ..
  · simp [Shape.labels]

section Join

variable {σ σ₂ σ₃ : Reader} {a b : Shape}

/-- What is read before the second child. -/
theorem Built.left (ha : Built σ.clade σ₂ a) :
    σ₂.size = σ.size + 1 + a.size ∧ σ₂.parentStack = σ.size :: σ.parentStack ∧ σ₂.sibling = some (σ.size + 1) :=
  ⟨ha.size, ha.parentStack, ha.sibling⟩

/-- The clade lies below the nodes that are made after it. -/
theorem Built.size_lt (ha : Built σ.clade σ₂ a) : σ.size < σ₂.size := by
  rw [ha.left.1]
  omega

/-- The second child leaves the clade and its first child as they are, apart from
the sibling of the first child. -/
theorem Built.frame_right (ha : Built σ.clade σ₂ a) (hb : Built σ₂ σ₃ b) {q : Ptr} (hq : q < σ₂.size)
    (hne : q ≠ σ.size) : σ₃.nodes q =
      if q = σ.size + 1 then { σ₂.nodes q with sibling := some σ₂.size } else σ₂.nodes q := by
  obtain ⟨-, hstack, hsib⟩ := ha.left
  rw [hb.frame q hq, attach, hstack, hsib]
  by_cases h : q = σ.size + 1
  · simp [h]
  · simp [h, Ne.symm h, Ne.symm hne]

/-- The nodes before the clade see its root only. -/
theorem Built.frame_join (hσ : σ.Tidy) (ha : Built σ.clade σ₂ a) (hb : Built σ₂ σ₃ b) {q : Ptr} (hq : q < σ.size) :
    σ₃.nodes q = σ.attach q (σ.nodes q) := by
  have hnode : ∀ q, σ.clade.nodes q = (σ.addNode.2).nodes q := fun _ => rfl
  have hq₁ : q ≠ σ.size + 1 := (hq.trans (Nat.lt_succ_self _)).ne
  rw [ha.frame_right hb (hq.trans ha.size_lt) hq.ne, if_neg hq₁, ha.frame q (hq.trans (Nat.lt_succ_self _)), attach,
    show σ.clade.parentStack = σ.size :: σ.parentStack from rfl, show σ.clade.sibling = none from rfl, hnode,
    addNode_nodes hσ, if_neg hq.ne]
  simp [hq.ne']

/-- The root of the clade. -/
theorem Built.root_join (hσ : σ.Tidy) (ha : Built σ.clade σ₂ a) (hb : Built σ₂ σ₃ b) :
    σ₃.nodes σ.size = Tree.record 0 σ.parentStack.head?
      (if σ.parentStack = [] then none else σ.sibling) ((Shape.join a b).build σ.size) := by
  obtain ⟨hsize, hstack, hsib⟩ := ha.left
  have hnode : ∀ q, σ.clade.nodes q = (σ.addNode.2).nodes q := fun _ => rfl
  rw [hb.frame _ ha.size_lt, ha.frame _ (Nat.lt_succ_self _), hnode, addNode_nodes hσ, if_pos rfl]
  simp only [attach, hstack, hsib, show σ.clade.sibling = none from rfl,
    show σ.clade.parentStack = σ.size :: σ.parentStack from rfl, List.head?_cons]
  simp [Tree.record, Shape.build, Tree.leftPtr, Tree.rightPtr, Bitset.encode, hsize,
    show σ.clade.size = σ.size + 1 from rfl]

/-- The first child gets its sibling when the second one is read. -/
theorem Built.stored_left (ha : Built σ.clade σ₂ a) (hb : Built σ₂ σ₃ b) :
    (a.build (σ.size + 1)).Stored 0 σ₃.nodes (some σ.size) (some (σ.size + 1 + a.size)) := by
  have hsize := ha.left.1
  have hmem : ∀ q ∈ (a.build (σ.size + 1)).ptrs, q < σ₂.size ∧ q ≠ σ.size := by
    intro q hq
    rw [Shape.ptrs_build, List.mem_range'_1] at hq
    rw [hsize]
    exact ⟨hq.2, fun he => Nat.not_succ_le_self σ.size (he ▸ hq.1)⟩
  have hself := Tree.ptr_mem_ptrs (Tree.mem_subtrees_self (a.build (σ.size + 1)))
  have hst : (a.build (σ.size + 1)).Stored 0 σ₂.nodes (some σ.size) none := by
    have h := ha.stored
    rw [show σ.clade.sibling = none from rfl, ite_self] at h
    exact h
  refine hst.move ?_ ?_ fun q hq hne => ?_
  · rw [Shape.ptrs_build]
    exact List.nodup_range'
  · have hr := hst.root
    rw [Shape.ptr_build] at hr
    rw [ha.frame_right hb (hmem _ hself).1 (hmem _ hself).2, Shape.ptr_build, if_pos rfl, ← hsize, hr]
    rfl
  · rw [ha.frame_right hb (hmem q hq).1 (hmem q hq).2, if_neg]
    rwa [Shape.ptr_build] at hne

/-- The second child has the first one as its sibling. -/
theorem Built.stored_right (ha : Built σ.clade σ₂ a) (hb : Built σ₂ σ₃ b) :
    (b.build (σ.size + 1 + a.size)).Stored 0 σ₃.nodes (some σ.size) (some (σ.size + 1)) := by
  obtain ⟨hsize, hstack, hsib⟩ := ha.left
  have h := hb.stored
  rw [hstack, hsib, hsize] at h
  exact h

/-- The terminals of a clade are those of its children. -/
theorem Built.terminalToLabel_join (hσ : σ.Tidy) (ha : Built σ.clade σ₂ a) (hb : Built σ₂ σ₃ b) {u : Tree}
    (hu : u ∈ ((Shape.join a b).build σ.size).subtrees) : σ₃.terminalToLabel u.ptr = u.terminalToLabel := by
  have hsize := ha.left.1
  rcases Tree.mem_subtrees_node.1 hu with rfl | hu | hu
  · show σ₃.terminalToLabel σ.size = none
    rw [hb.terminalToLabel_old _ ha.size_lt, ha.terminalToLabel_old _ (Nat.lt_succ_self _)]
    exact hσ.fresh _ le_rfl
  · have hlt : u.ptr < σ₂.size := by
      have hp := Tree.ptr_mem_ptrs hu
      rw [Shape.ptrs_build, List.mem_range'_1] at hp
      rw [hsize]
      exact hp.2
    rw [hb.terminalToLabel_old _ hlt, ha.terminalToLabel u hu]
  · refine hb.terminalToLabel u ?_
    rwa [hsize]

/-- The labels of a clade name the leaves of its children. -/
theorem Built.labelToTerminal_join (hd : Disjoint a.labels b.labels) (ha : Built σ.clade σ₂ a) (hb : Built σ₂ σ₃ b)
    {p : Ptr} {x : Label} {m : Finset Label} (h : Tree.leaf p x m ∈ ((Shape.join a b).build σ.size).subtrees) :
    σ₃.labelToTerminal x = some p := by
  rcases Tree.mem_subtrees_node.1 h with h | h | h
  · cases h
  · rw [hb.labelToTerminal_old x fun hxb => ?_]
    · exact ha.labelToTerminal p x m h
    · refine Finset.disjoint_left.1 hd ?_ hxb
      rw [← Shape.labels_build (σ.size + 1) a]
      exact Tree.labels_subset_of_mem_subtrees h (Finset.mem_singleton_self x)
  · refine hb.labelToTerminal p x m ?_
    rwa [ha.left.1]

/-- **A clade is built when its children are.** -/
theorem Built.join (hσ : σ.Tidy) (hd : Disjoint a.labels b.labels) (ha : Built σ.clade σ₂ a) (hb : Built σ₂ σ₃ b) :
    Built σ { σ₃ with sibling := some σ.size, parentStack := σ.parentStack } (.join a b) := by
  have hsize : σ₃.size = σ.size + 1 + a.size + b.size := by rw [hb.size, ha.left.1]
  have hp₃ : σ.size < σ₃.size := by omega
  have hroot := ha.root_join hσ hb
  have hleft := ha.stored_left hb
  have hright := ha.stored_right hb
  refine ⟨⟨hb.tidy.fresh, hb.tidy.keys, fun q hq => (hσ.stack q hq).trans hp₃, fun q hq => ?_⟩, ?_, rfl, rfl,
    hb.roots.trans ha.roots, ?_, ⟨hroot, ?_, ?_⟩, fun q hq => ha.frame_join hσ hb hq,
    fun u hu => ha.terminalToLabel_join hσ hb hu, fun q hq => ?_, fun p x m h => ha.labelToTerminal_join hd hb h,
    fun x hx => ?_, fun x => ?_⟩
  · exact Option.some.inj hq ▸ hp₃
  · show σ₃.size = _
    rw [hsize, Shape.size]
    ring
  · show σ₃.currentRoot = _
    rw [hb.currentRoot, ha.currentRoot, show σ.clade.currentRoot = _ from currentRoot_getD ..]
    rfl
  · rw [Shape.ptr_build]
    exact hleft
  · rw [Shape.ptr_build]
    exact hright
  · show σ₃.terminalToLabel q = _
    rw [hb.terminalToLabel_old _ (hq.trans ha.size_lt), ha.terminalToLabel_old _ (hq.trans (Nat.lt_succ_self _))]
    rfl
  · show σ₃.labelToTerminal x = _
    rw [Shape.labels, Finset.mem_union, not_or] at hx
    rw [hb.labelToTerminal_old x hx.2, ha.labelToTerminal_old x hx.1]
    rfl
  · show x ∈ σ₃.labels ↔ _
    rw [hb.labels, ha.labels, Shape.labels, Finset.mem_union]
    exact or_left_comm.trans or_assoc.symm

end Join

/-- **The events of a topology build it.** -/
theorem built_events {t : Shape} (ht : t.Distinct) {σ : Reader} (hσ : σ.Tidy) (hx : ∀ x ∈ t.labels, x ∉ σ.labels) :
    Built σ (σ.steps t.events) t := by
  induction t generalizing σ with
  | tip x => exact built_tip hσ (hx x (by simp))
  | join a b iha ihb =>
      obtain ⟨hda, hdb, hd⟩ := ht
      have ha := iha hda (tidy_clade hσ) fun x hxa => hx x (by simp [hxa])
      have hb := ihb hdb ha.tidy fun x hxb => by
        rw [ha.labels]
        exact not_or.2 ⟨fun hxa => Finset.disjoint_left.1 hd hxa hxb, hx x (by simp [hxb])⟩
      have hstack := hb.parentStack.trans ha.left.2.1
      have hclose : σ.steps (Shape.join a b).events =
          { (σ.clade.steps a.events).steps b.events with sibling := some σ.size, parentStack := σ.parentStack } := by
        rw [Shape.events, steps_cons, steps_append, steps_append]
        show ((σ.clade.steps a.events).steps b.events).close = _
        rw [close, hstack]
      rw [hclose]
      exact ha.join hσ hd hb

/-! ### Some topologies -/

/-- The reader stands between two trees. -/
structure Idle (σ : Reader) : Prop where
  tidy : σ.Tidy
  parentStack : σ.parentStack = []
  sibling : σ.sibling = none

/-- **The topologies `ts` have been read**, one behind the other. -/
structure AllBuilt (σ τ : Reader) (ts : List Shape) : Prop where
  idle : τ.Idle
  size : τ.size = σ.size + Shape.sizes ts
  roots : τ.roots = σ.roots ++ (Shape.row (fun p t => t.build p) σ.size ts).map Tree.ptr
  stored : ∀ t ∈ Shape.row (fun p t => t.build p) σ.size ts, t.Stored 0 τ.nodes none none
  frame : ∀ q < σ.size, τ.nodes q = σ.nodes q
  terminalToLabel : ∀ u ∈ (Shape.row (fun p t => t.build p) σ.size ts).subtrees,
    τ.terminalToLabel u.ptr = u.terminalToLabel
  terminalToLabel_old : ∀ q < σ.size, τ.terminalToLabel q = σ.terminalToLabel q
  labelToTerminal : ∀ p x m, Tree.leaf p x m ∈ (Shape.row (fun p t => t.build p) σ.size ts).subtrees →
    τ.labelToTerminal x = some p
  labelToTerminal_old : ∀ x, (∀ t ∈ ts, x ∉ t.labels) → τ.labelToTerminal x = σ.labelToTerminal x
  labels : ∀ x, x ∈ τ.labels ↔ (∃ t ∈ ts, x ∈ t.labels) ∨ x ∈ σ.labels

/-- Outside of all clades no node is attached. -/
theorem attach_of_stack {σ : Reader} (h : σ.parentStack = []) (q : Ptr) (n : Node) : σ.attach q n = n := by
  rw [attach, h]
  simp

/-- After a topology nothing is open. -/
theorem Built.tree_idle {σ τ : Reader} {t : Shape} (hτ : Built σ τ t) : τ.finish.Idle :=
  ⟨⟨hτ.tidy.fresh, hτ.tidy.keys, fun _ hq => (List.not_mem_nil hq).elim, fun _ hq => by cases hq⟩, rfl, rfl⟩

/-- **The events of some topologies build them.** -/
theorem allBuilt_trees {ts : List Shape} (hts : Shape.AllDistinct ts) {σ : Reader} (hσ : σ.Idle)
    (hx : ∀ t ∈ ts, ∀ x ∈ t.labels, x ∉ σ.labels) : AllBuilt σ (σ.trees (ts.map Shape.events)) ts := by
  induction ts generalizing σ with
  | nil =>
      refine ⟨hσ, rfl, (List.append_nil _).symm, fun _ h => ?_, fun _ _ => rfl, fun _ h => ?_, fun _ _ => rfl,
        fun _ _ _ h => ?_, fun _ _ => rfl, fun x => by simp [trees]⟩
      all_goals exact (List.not_mem_nil h).elim
  | cons t ts ih =>
      obtain ⟨hd, hpair⟩ := hts
      rw [List.pairwise_cons] at hpair
      -- the first tree
      have hσ₀ : ({ σ with currentRoot := none } : Reader).Tidy :=
        ⟨hσ.tidy.fresh, hσ.tidy.keys, hσ.tidy.stack, hσ.tidy.sibling⟩
      have ht := built_events (hd t (List.mem_cons_self ..)) hσ₀ (hx t (List.mem_cons_self ..))
      set τ := ({ σ with currentRoot := none } : Reader).steps t.events
      have hstack : τ.parentStack = [] := ht.parentStack.trans hσ.parentStack
      have hsize : τ.size = σ.size + t.size := ht.size
      have hst : (t.build σ.size).Stored 0 τ.nodes none none := by
        have h := ht.stored
        rw [show ({ σ with currentRoot := none } : Reader).parentStack = [] from hσ.parentStack] at h
        exact h
      -- the trees after it
      have hrest := ih ⟨fun u hu => hd u (List.mem_cons_of_mem _ hu), hpair.2⟩ ht.tree_idle fun u hu x hxu => by
        show x ∉ τ.labels
        rw [ht.labels]
        exact not_or.2 ⟨fun hxt => Finset.disjoint_left.1 (hpair.1 u hu) hxt hxu,
          hx u (List.mem_cons_of_mem _ hu) x hxu⟩
      have hold : ∀ q ∈ (t.build σ.size).ptrs, q < τ.finish.size := by
        intro q hq
        rw [Shape.ptrs_build, List.mem_range'_1] at hq
        exact hq.2.trans_eq hsize.symm
      have hle : σ.size ≤ τ.finish.size := hsize ▸ Nat.le_add_right _ _
      rw [show σ.trees ((t :: ts).map Shape.events) = τ.finish.trees (ts.map Shape.events) from rfl]
      have hrow : Shape.row (fun p t => t.build p) σ.size (t :: ts) =
          t.build σ.size :: Shape.row (fun p t => t.build p) τ.finish.size ts := by
        rw [Shape.row, show τ.finish.size = σ.size + t.size from hsize]
      refine ⟨hrest.idle, ?_, ?_, fun u hu => ?_, fun q hq => ?_, fun u hu => ?_, fun q hq => ?_, fun p x m h => ?_,
        fun x hxn => ?_, fun x => ?_⟩
      · rw [hrest.size, show τ.finish.size = σ.size + t.size from hsize, Shape.sizes, Shape.sizes, List.map_cons,
          List.sum_cons, Nat.add_assoc]
      · rw [hrest.roots, hrow, List.map_cons, Shape.ptr_build]
        show τ.roots ++ τ.currentRoot.toList ++ _ = _
        rw [ht.currentRoot, ht.roots]
        simp
      · rw [hrow] at hu
        rcases List.mem_cons.1 hu with rfl | hu
        · exact hst.congr fun q hq => hrest.frame q (hold q hq)
        · exact hrest.stored u hu
      · rw [hrest.frame q (hq.trans_le hle)]
        exact (ht.frame q hq).trans (attach_of_stack hσ.parentStack q _)
      · rw [hrow, Forest.subtrees, List.flatMap_cons, List.mem_append] at hu
        rcases hu with hu | hu
        · rw [hrest.terminalToLabel_old _ (hold _ (Tree.ptr_mem_ptrs hu))]
          exact ht.terminalToLabel u hu
        · exact hrest.terminalToLabel u hu
      · rw [hrest.terminalToLabel_old _ (hq.trans_le hle)]
        exact ht.terminalToLabel_old q hq
      · rw [hrow, Forest.subtrees, List.flatMap_cons, List.mem_append] at h
        rcases h with h | h
        · have hxt : x ∈ t.labels := by
            rw [← Shape.labels_build σ.size t]
            exact Tree.labels_subset_of_mem_subtrees h (Finset.mem_singleton_self x)
          rw [hrest.labelToTerminal_old x fun u hu => Finset.disjoint_left.1 (hpair.1 u hu) hxt]
          exact ht.labelToTerminal p x m h
        · exact hrest.labelToTerminal p x m h
      · rw [hrest.labelToTerminal_old x fun u hu => hxn u (List.mem_cons_of_mem _ hu)]
        exact ht.labelToTerminal_old x (hxn t (List.mem_cons_self ..))
      · rw [hrest.labels, show τ.finish.labels = τ.labels from rfl, ht.labels]
        simp only [List.mem_cons, exists_eq_or_imp]
        exact or_left_comm.trans or_assoc.symm

end Reader
end Graph
end Maf
