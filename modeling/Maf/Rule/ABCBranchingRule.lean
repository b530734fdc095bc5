/-
# The first branch of the ABC rule

`src/Solver/Rule/ABCBranchingRule.cpp`: the first branch cuts off the b-nodes that
were collected before any cut.  Each cut suppresses a node of the path and leaves
the b-nodes that are still to come where they hang (`Hung.cut`), so none of them is
a root when it is cut off; after the last one `a` and `c` are siblings, and the
suggested `EqualPairReductionRule` collapses their parent
(`joinPair_run`, `collapsePair_spec`).
-/

import Maf.Rule.BNodes
import Maf.Rule.Bodies

namespace Maf

open EarlyExit Prog
open Graph Body

namespace Forest

section Cherry

variable {F : Forest} {a c : Label}

/-- The two terminals of a cherry and their parent. -/
theorem exists_cherry (hF : F.Distinct) (h : {a, c} ∈ F.clusters) (hne : a ≠ c) :
    ∃ q u v, Tree.node q u v ∈ F.subtrees ∧ ∃ pa ma pc mc,
      u = .leaf pa a ma ∧ v = .leaf pc c mc ∨ u = .leaf pc c mc ∧ v = .leaf pa a ma := by
  obtain ⟨s, hs, hlab⟩ := mem_clusters_iff.1 h
  cases s with
  | leaf p x m =>
      have hax : a ∈ (Tree.leaf p x m).labels := hlab ▸ by simp
      have hcx : c ∈ (Tree.leaf p x m).labels := hlab ▸ by simp
      rw [Tree.labels, Finset.mem_singleton] at hax hcx
      exact absurd (hax.trans hcx.symm) hne
  | node q u v =>
      have hd := (hF.of_mem_subtrees hs).2.2
      obtain ⟨hu, hv⟩ := mem_subtrees_children hs
      have hcard : u.labels.card + v.labels.card = 2 := by
        rw [← Finset.card_union_of_disjoint hd, show u.labels ∪ v.labels = _ from hlab, Finset.card_pair hne]
      have h₁ := u.labels_nonempty.card_pos
      have h₂ := v.labels_nonempty.card_pos
      obtain ⟨x, hx⟩ := Finset.card_eq_one.1 (show u.labels.card = 1 by omega)
      obtain ⟨y, hy⟩ := Finset.card_eq_one.1 (show v.labels.card = 1 by omega)
      obtain ⟨p, m, rfl⟩ := eq_leaf_of_labels hx (hF.of_mem_subtrees hu)
      obtain ⟨p', m', rfl⟩ := eq_leaf_of_labels hy (hF.of_mem_subtrees hv)
      have hpair : ({x, y} : Finset Label) = {a, c} := hlab
      have hxac : x ∈ ({a, c} : Finset Label) := hpair ▸ by simp
      have hyac : y ∈ ({a, c} : Finset Label) := hpair ▸ by simp
      have hxy : x ≠ y := by simpa using hd
      rw [Finset.mem_insert, Finset.mem_singleton] at hxac hyac
      refine ⟨q, _, _, hs, ?_⟩
      rcases hxac with rfl | rfl <;> rcases hyac with rfl | rfl
      · exact absurd rfl hxy
      · exact ⟨p, m, p', m', Or.inl ⟨rfl, rfl⟩⟩
      · exact ⟨p', m', p, m, Or.inr ⟨rfl, rfl⟩⟩
      · exact absurd rfl hxy

/-- The parent of the terminal of a label, collapsed. -/
def collapseParent (x : Label) (F : Forest) : Forest :=
  match (F.labelToTerminal x).bind F.parent with
  | none => F
  | some v => F.collapse v.ptr

/-- Collapsing the parent of a label collapses the node above its leaf. -/
theorem collapseParent_eq (hF : F.Valid) {q : Ptr} {u v : Tree} (hq : Tree.node q u v ∈ F.subtrees) {p : Ptr}
    {m : Finset Label} (hx : u = .leaf p a m ∨ v = .leaf p a m) : F.collapseParent a = F.collapse q := by
  obtain ⟨hu, hv⟩ := mem_subtrees_children hq
  have hleaf : Tree.leaf p a m ∈ F.subtrees := by
    rcases hx with rfl | rfl
    · exact hu
    · exact hv
  rw [collapseParent, labelToTerminal_leaf hF hleaf, Option.bind_some,
    (parent_eq_some_iff hF.distinct).2 ⟨hq, hx⟩]
  rfl

/-- **Collapsing a cherry takes the larger of its labels away.** -/
theorem labels_collapseParent (hF : F.Valid) (h : {a, c} ∈ F.clusters) (hne : a ≠ c) :
    (F.collapseParent a).labels = F.labels.erase (max a c) := by
  obtain ⟨q, u, v, hq, pa, ma, pc, mc, hor⟩ := exists_cherry hF.distinct h hne
  have hx : u = .leaf pa a ma ∨ v = .leaf pa a ma := hor.imp And.left And.right
  obtain ⟨hu, hv⟩ := mem_subtrees_children hq
  have hleast : (Tree.node q u v).least = min a c := by
    rcases hor with ⟨rfl, rfl⟩ | ⟨rfl, rfl⟩
    · rfl
    · exact min_comm c a
  have hbelow : ∀ p, p ∈ (Tree.node q u v).ptrs ↔ p = q ∨ p = pa ∨ p = pc := by
    intro p
    rcases hor with ⟨rfl, rfl⟩ | ⟨rfl, rfl⟩
    · simp
    · simp [or_comm]
  have haF : Tree.leaf pa a ma ∈ F.subtrees := by
    rcases hor with ⟨rfl, rfl⟩ | ⟨rfl, rfl⟩
    · exact hu
    · exact hv
  have hcF : Tree.leaf pc c mc ∈ F.subtrees := by
    rcases hor with ⟨rfl, rfl⟩ | ⟨rfl, rfl⟩
    · exact hv
    · exact hu
  have hlabel : ∀ {G : Forest} {x : Label}, x ∈ G.labels ↔ ∃ p m, Tree.leaf p x m ∈ G.subtrees := fun {G x} =>
    ⟨exists_leaf, fun ⟨_, _, hp⟩ => subset_labels (labels_mem_clusters hp) (by simp)⟩
  rw [collapseParent_eq hF hq hx]
  ext x
  rw [hlabel, Finset.mem_erase]
  constructor
  · rintro ⟨p, m, hp⟩
    rcases (leaf_mem_collapse hF hq).1 hp with he | ⟨hpF, hpq⟩
    · have hxl : x = min a c := by
        rw [Tree.collapsed, hleast] at he
        exact (Tree.leaf.inj he).2.1
      refine ⟨hxl ▸ (min_lt_max.2 hne).ne, ?_⟩
      rcases min_choice a c with hm | hm <;> rw [hxl, hm]
      · exact hlabel.2 ⟨_, _, haF⟩
      · exact hlabel.2 ⟨_, _, hcF⟩
    · refine ⟨fun hmax => hpq ((hbelow p).2 (Or.inr ?_)), hlabel.2 ⟨p, m, hpF⟩⟩
      rcases max_choice a c with hm | hm <;> rw [hm] at hmax <;> subst hmax
      · exact Or.inl (Tree.leaf.inj (eq_of_labels_eq hF.distinct hpF haF rfl)).1
      · exact Or.inr (Tree.leaf.inj (eq_of_labels_eq hF.distinct hpF hcF rfl)).1
  · rintro ⟨hmax, hxF⟩
    by_cases hxm : x = min a c
    · refine ⟨q, (Tree.node q u v).subtreeTerminals.erase (Tree.node q u v).least,
        (leaf_mem_collapse hF hq).2 (Or.inl ?_)⟩
      rw [Tree.collapsed, hleast, hxm]
      rfl
    · have hother : x ≠ a ∧ x ≠ c := by
        rcases le_total a c with h | h
        · rw [min_eq_left h] at hxm
          rw [max_eq_right h] at hmax
          exact ⟨hxm, hmax⟩
        · rw [min_eq_right h] at hxm
          rw [max_eq_left h] at hmax
          exact ⟨hmax, hxm⟩
      obtain ⟨p, m, hp⟩ := hlabel.1 hxF
      refine ⟨p, m, (leaf_mem_collapse hF hq).2 (Or.inr ⟨hp, fun hpq => ?_⟩)⟩
      have same : ∀ {w : Tree}, w ∈ F.subtrees → p = w.ptr → Tree.leaf p x m = w := fun hw he =>
        eq_of_ptr_eq hF.nodup hp hw he
      rcases (hbelow p).1 hpq with he | he | he
      · cases same hq he
      · exact hother.1 (Tree.leaf.inj (same haF he)).2.1
      · exact hother.2 (Tree.leaf.inj (same hcF he)).2.1

end Cherry

/-- The subtrees `B` hang apart from each other in the smallest tree around `a` and
`c`, and fill it. -/
structure Hung (F : Forest) (a c : Label) (B : List Tree) : Prop where
  mem : ∀ b ∈ B, b ∈ F.subtrees
  apart : B.Pairwise fun b b' => Disjoint b.labels b'.labels
  ends : ∀ b ∈ B, a ∉ b.labels ∧ c ∉ b.labels
  cluster : {a, c} ∪ labels B ∈ F.clusters

section Hung

variable {F : Forest} {a c : Label} {B : List Tree} {b : Tree}

/-- The nodes on the path hang off it. -/
theorem Hung.of_pathNodes (h : PathNodes F a c B) : Hung F a c B :=
  ⟨h.mem, h.apart, fun b hb => (h.pendant b hb).notMem, h.cluster⟩

/-- What hangs from the path is no root. -/
theorem Hung.not_root (h : Hung F a c (b :: B)) (hF : F.Distinct) : b ∉ F := by
  intro hroot
  obtain ⟨t, ht, hT⟩ := mem_clusters.1 h.cluster
  have hsub := Tree.subset_labels hT
  obtain ⟨x, hx⟩ := b.labels_nonempty
  obtain rfl := hF.eq_of_mem hroot ht hx (hsub (Finset.mem_union_right _ (by simp [hx])))
  exact (h.ends b (List.mem_cons_self ..)).1 (hsub (by simp))

/-- **What is still to be cut off hangs as before.** -/
theorem Hung.cut (h : Hung F a c (b :: B)) (hF : F.Valid) : Hung (F.cut b) a c B := by
  have hapart := List.pairwise_cons.1 h.apart
  have hb := h.mem b (List.mem_cons_self ..)
  have hends := h.ends b (List.mem_cons_self ..)
  refine ⟨fun u hu => mem_subtrees_cut hF (h.mem u (List.mem_cons_of_mem _ hu)) (Or.inr (hapart.1 u hu).symm), hapart.2,
    fun u hu => h.ends u (List.mem_cons_of_mem _ hu), ?_⟩
  have hrest : ({a, c} ∪ labels (b :: B)) \ b.labels = {a, c} ∪ labels B := by
    rw [labels_cons, Finset.union_left_comm, Finset.union_sdiff_cancel_left]
    refine Finset.disjoint_union_right.2 ⟨?_, Finset.disjoint_left.2 fun x hx hxB => ?_⟩
    · rw [Finset.disjoint_insert_right, Finset.disjoint_singleton_right]
      exact hends
    · obtain ⟨u, hu, hxu⟩ := mem_labels.1 hxB
      exact Finset.disjoint_left.1 (hapart.1 u hu) hx hxu
  rw [(cut_spec hF hb).2.2, mem_cutAt]
  refine Or.inl ⟨_, h.cluster, ⟨fun x hx => Finset.mem_union_right _ (by simp [hx]), fun hs => ?_⟩, hrest⟩
  exact hends.1 (hs (by simp))

end Hung

/-- **What the first branch makes of a forest**: `a` and `c` are siblings, and what
hung between them are trees of their own. -/
structure PairJoined (a c : Label) (F G : Forest) : Prop where
  labels : G.labels = F.labels
  cherry : {a, c} ∈ G.clusters
  parted : ∀ u ∈ F.subtrees, Pendant F.clusters a c u.labels → u ∈ G

end Forest

namespace ABCBranchingRule

open Forest

variable {width fuel i : ℕ} {a c : Label}

/-- **The subtrees of one forest are cut off**, one after another. -/
theorem cutNodes_run {F : Forest} {B : List Tree} (h : Hung F a c B) {Fs : List Forest} {m : Memory}
    (hm : m.Holds width fuel Fs) (hF : Fs[i]? = some F) (r : RuleObject) :
    ∃ b y, forEach (cutNode fuel i) (B.map Tree.ptr) (r, m) = some (b, y) ∧ Keeps fuel (r, m) y ∧
      (b = true ↔ ∃ u ∈ B, (i, u.ptr) ∈ m.protectedEdges) ∧
      ∃ G, y.2.Holds width fuel (Fs.set i G) ∧ G.labels = F.labels ∧
        (b = false → {a, c} ∈ G.clusters ∧ (∀ u ∈ B, u ∈ G) ∧
          (∀ u ∈ F, (∀ v ∈ B, Disjoint u.labels v.labels) → u ∈ G) ∧
          y.1.changes.map Change.cutNode =
              (B.map fun u => some (i, u.ptr)).reverse ++ r.changes.map Change.cutNode) := by
  induction B generalizing F Fs m r with
  | nil =>
      have hset : Fs.set i F = Fs := by
        obtain ⟨hi, rfl⟩ := List.getElem?_eq_some_iff.1 hF
        exact List.set_getElem_self ..
      refine ⟨false, (r, m), rfl, Std.Refl.refl _, by simp, F, by rwa [hset], rfl,
        fun _ => ⟨?_, by simp, fun u hu _ => hu, rfl⟩⟩
      simpa using h.cluster
  | cons u B ih =>
      obtain ⟨s, -, hheld⟩ := hm.get hF
      have hv := hheld.wellFormed.valid
      have hi : i < Fs.length := (List.getElem?_eq_some_iff.1 hF).1
      have hu := h.mem u (List.mem_cons_self ..)
      have hset : Fs.set i F = Fs := by
        obtain ⟨hi, rfl⟩ := List.getElem?_eq_some_iff.1 hF
        exact List.set_getElem_self ..
      rw [List.map_cons, forEach]
      by_cases hp : (i, u.ptr) ∈ m.protectedEdges
      · refine ⟨true, (r, m), ?_, Std.Refl.refl _, by simp [hp], F, by rwa [hset], rfl,
          fun h => absurd h Bool.noConfusion⟩
        simp only [Prog.seq, cutNode, if_pos hp, Prog.exit]
      · obtain ⟨action, s', hchild, hcut, hm', hkeeps⟩ := deleteEdge_eq hm hF hu (h.not_root hv.distinct) r
        obtain ⟨b, y, hrun, hkeeps', hprot, G, hG, hlab, hend⟩ := ih (h.cut hv) hm' (List.getElem?_set_self hi)
          { r with changes := .deleteEdge i action :: r.changes }
        rw [List.set_set] at hG
        refine ⟨b, y, ?_, IsTrans.trans _ _ _ hkeeps hkeeps', by rw [hprot]; simp [hp], G, hG,
          hlab.trans (cut_spec hv hu).2.1, fun hb => ?_⟩
        · simp only [Prog.seq, cutNode, if_neg hp, hcut]
          exact hrun
        · obtain ⟨hcl, hparted, hother, hchanges⟩ := hend hb
          have hapart := (List.pairwise_cons.1 h.apart).1
          refine ⟨hcl, List.forall_mem_cons.2 ⟨hother u (mem_cut_self hv hu) hapart, hparted⟩, fun w hw hd => ?_, ?_⟩
          · rw [List.forall_mem_cons] at hd
            exact hother w (mem_cut_of_disjoint hv hw hd.1) hd.2
          · rw [hchanges]
            simp [Change.cutNode, hchild]

/-- The nodes that the first branch cuts off, with the numbers of their forests. -/
def cutNodes (forestWithBNodes : List (ℕ × List Ptr)) : List (ℕ × Ptr) :=
  forestWithBNodes.flatMap fun e => e.2.map fun p => (e.1, p)

/-- The nodes that are cut, forest by forest. -/
theorem mem_cutNodes_cons {B : List Tree} {bs : List (ℕ × List Ptr)} {p : ℕ × Ptr} :
    p ∈ cutNodes ((i, B.map Tree.ptr) :: bs) ↔ (∃ u ∈ B, (i, u.ptr) = p) ∨ p ∈ cutNodes bs := by
  simp [cutNodes]

/-- **The first branch**, from the forest of number `i` on. -/
theorem joinPair_run {fs : List Forest} {bs : List (ℕ × List Ptr)} (h : Collected a c i fs bs) {done : List Forest}
    (hi : done.length = i) {m : Memory} (hm : m.Holds width fuel (done ++ fs)) (r : RuleObject) :
    ∃ b y, forEach (fun e : ℕ × List Ptr => forEach (cutNode fuel e.1) e.2) bs (r, m) = some (b, y) ∧
      Keeps fuel (r, m) y ∧ (b = true ↔ ∃ p ∈ cutNodes bs, p ∈ m.protectedEdges) ∧
        ∃ Gs, y.2.Holds width fuel (done ++ Gs) ∧ List.Forall₂ (fun F G : Forest => G.labels = F.labels) fs Gs ∧
        (b = false → List.Forall₂ (PairJoined a c) fs Gs ∧
          y.1.changes.map Change.cutNode = ((cutNodes bs).map some).reverse ++ r.changes.map Change.cutNode) := by
  induction h generalizing done m r with
  | nil i => exact ⟨false, (r, m), rfl, Std.Refl.refl _, by simp [cutNodes], [], hm, .nil, fun _ => ⟨.nil, rfl⟩⟩
  | @siblings i F fs bs hcl hcol ih =>
      rw [List.append_cons] at hm
      have hv : F.Valid := by
        obtain ⟨s, -, hheld⟩ := hm.get (i := i) (F := F) (by simp [← hi])
        exact hheld.wellFormed.valid
      obtain ⟨b, y, hrun, hkeeps, hprot, Gs, hG, hlab, hend⟩ := ih (by simp [hi]) hm r
      refine ⟨b, y, hrun, hkeeps, hprot, F :: Gs, by rwa [List.append_cons], .cons rfl hlab, fun hb => ?_⟩
      refine ⟨.cons ⟨rfl, hcl, fun u hu hp => ?_⟩ (hend hb).1, (hend hb).2⟩
      exact absurd ((PathNodes.of_cherry hcl).complete hv.distinct hu hp) (by simp)
  | @between i F fs B bs hB hcol ih =>
      have hF : (done ++ F :: fs)[i]? = some F := by simp [← hi]
      have hv : F.Valid := by
        obtain ⟨s, -, hheld⟩ := hm.get hF
        exact hheld.wellFormed.valid
      obtain ⟨b, ⟨r', m'⟩, hrun, hkeeps, hprot, G, hG, hlab, hend⟩ := cutNodes_run (Hung.of_pathNodes hB) hm hF r
      have hset : (done ++ F :: fs).set i G = (done ++ [G]) ++ fs := by
        rw [← hi, List.set_append_right _ _ le_rfl, Nat.sub_self, List.set_cons_zero, List.append_cons]
      rw [hset] at hG
      -- a protected node of this forest, or of a later one
      have hsplit : (∃ p ∈ cutNodes ((i, B.map Tree.ptr) :: bs), p ∈ m.protectedEdges) ↔
          (∃ u ∈ B, (i, u.ptr) ∈ m.protectedEdges) ∨ ∃ p ∈ cutNodes bs, p ∈ m.protectedEdges := by
        simp [mem_cutNodes_cons, or_and_right, exists_or]
      rw [forEach, hsplit]
      cases b with
      | true =>
          refine ⟨true, (r', m'), by simp only [Prog.seq, hrun], hkeeps, by simp [← hprot],
            G :: fs, by rwa [List.append_cons],
            .cons hlab (List.forall₂_same.2 fun _ _ => rfl), fun h => absurd h Bool.noConfusion⟩
      | false =>
          obtain ⟨hcherry, hparted, -, hchanges⟩ := hend rfl
          obtain ⟨b, y, hrun', hkeeps', hprot', Gs, hG', hlab', hend'⟩ := ih (by simp [hi]) hG r'
          have hno : ¬∃ u ∈ B, (i, u.ptr) ∈ m.protectedEdges := fun h => Bool.noConfusion (hprot.2 h)
          refine ⟨b, y, by simp only [Prog.seq, hrun, hrun'], IsTrans.trans _ _ _ hkeeps hkeeps', ?_, G :: Gs,
            by rwa [List.append_cons], .cons hlab hlab',
              fun hb => ⟨.cons ⟨hlab, hcherry, fun u hu hp => ?_⟩ (hend' hb).1, ?_⟩⟩
          · rw [hprot', show m'.protectedEdges = m.protectedEdges from hkeeps.protectedEdges, or_iff_right hno]
          · exact hparted u (hB.complete hv.distinct hu hp)
          · rw [(hend' hb).2, hchanges]
            simp [cutNodes, Function.comp_def]

/-- **The nodes of the list** are the subtrees between the two, in every forest. -/
theorem mem_cutNodes {fs : List Forest} {bs : List (ℕ × List Ptr)} (h : Collected a c i fs bs)
    (hfs : ∀ F ∈ fs, F.Distinct) {j : ℕ} {p : Ptr} :
    (j, p) ∈ cutNodes bs ↔ ∃ k F, j = i + k ∧ fs[k]? = some F ∧
      ∃ u ∈ F.subtrees, u.ptr = p ∧ Pendant F.clusters a c u.labels := by
  induction h with
  | nil i => simp [cutNodes]
  | @siblings i F fs bs hcl hcol ih =>
      rw [ih fun F hF => hfs F (List.mem_cons_of_mem _ hF)]
      constructor
      · rintro ⟨k, G, rfl, hG, hu⟩
        exact ⟨k + 1, G, by omega, by simpa using hG, hu⟩
      · rintro ⟨k, G, rfl, hG, u, hu, rfl, hp⟩
        cases k with
        | zero =>
            obtain rfl : F = G := by simpa using hG
            exact absurd ((PathNodes.of_cherry hcl).complete (hfs F (List.mem_cons_self ..)) hu hp) (by simp)
        | succ k => exact ⟨k, G, by omega, by simpa using hG, u, hu, rfl, hp⟩
  | @between i F fs B bs hB hcol ih =>
      rw [mem_cutNodes_cons, ih fun F hF => hfs F (List.mem_cons_of_mem _ hF)]
      constructor
      · rintro (⟨u, hu, he⟩ | ⟨k, G, rfl, hG, hu⟩)
        · obtain ⟨rfl, rfl⟩ := Prod.mk.inj he
          exact ⟨0, F, by omega, rfl, u, hB.mem u hu, rfl, hB.pendant u hu⟩
        · exact ⟨k + 1, G, by omega, by simpa using hG, hu⟩
      · rintro ⟨k, G, rfl, hG, u, hu, rfl, hp⟩
        cases k with
        | zero =>
            obtain rfl : F = G := by simpa using hG
            exact Or.inl ⟨u, hB.complete (hfs F (List.mem_cons_self ..)) hu hp, rfl⟩
        | succ k => exact Or.inr ⟨k, G, by omega, by simpa using hG, u, hu, rfl, hp⟩

/-- No node is named twice. -/
theorem nodup_cutNodes {fs : List Forest} {bs : List (ℕ × List Ptr)} (h : Collected a c i fs bs)
    (hfs : ∀ F ∈ fs, F.Valid) : (cutNodes bs).Nodup := by
  induction h with
  | nil i => exact List.nodup_nil
  | siblings hcl hcol ih => exact ih fun F hF => hfs F (List.mem_cons_of_mem _ hF)
  | @between i F fs B bs hB hcol ih =>
      have hv := hfs F (List.mem_cons_self ..)
      have htail : ∀ G ∈ fs, G.Valid := fun G hG => hfs G (List.mem_cons_of_mem _ hG)
      have hnodup : (B.map Tree.ptr).Nodup := by
        rw [List.nodup_iff_pairwise_ne, List.pairwise_map]
        refine hB.apart.imp_of_mem fun {u v} hu hv' hd he => ?_
        obtain rfl := eq_of_ptr_eq hv.nodup (hB.mem u hu) (hB.mem v hv') he
        obtain ⟨x, hx⟩ := u.labels_nonempty
        exact Finset.disjoint_left.1 hd hx hx
      refine List.nodup_append.2 ⟨hnodup.map fun p q h => (Prod.mk.inj h).2, ih htail, ?_⟩
      rintro ⟨j, p⟩ hjp ⟨j', p'⟩ hjp' he
      obtain ⟨q, -, hq⟩ := List.mem_map.1 hjp
      obtain ⟨k, -, hk, -⟩ := (mem_cutNodes hcol fun G hG => (htail G hG).distinct).1 hjp'
      have h₁ := (Prod.mk.inj hq).1
      have h₂ := (Prod.mk.inj he).1
      omega

end ABCBranchingRule

namespace EqualPairReductionRule

open Forest

variable {width fuel : ℕ} {a c : Label} {Fs : List Forest} {E : RuleObject × Memory → Prop}

/-- **The cherry is collapsed in every forest.** -/
theorem collapsePair_spec (hcl : ∀ F ∈ Fs, {a, c} ∈ F.clusters) (hne : a ≠ c) :
    EarlyExit.Triple (Keeps fuel) E (fun y => y.2.Holds width fuel Fs) (EqualPairReductionRule.apply a)
      (fun y => y.2.Holds width fuel (Fs.map (Forest.collapseParent a))) := by
  -- the forests still to come are as they were
  set I : List ℕ → RuleObject × Memory → Prop := fun xs y => xs.Nodup ∧ (∀ j ∈ xs, j < Fs.length) ∧
    y.2.Holds width fuel (Fs.mapIdx fun j F => if j ∈ xs then F else F.collapseParent a) with hI
  have hstep : ∀ j xs, EarlyExit.Triple (Keeps fuel) E (I (j :: xs)) (collapseParent a j) (I xs) := by
    rintro j xs ⟨r, m⟩ ⟨hnodup, hlt, hm⟩
    obtain ⟨hjxs, hnodup⟩ := List.nodup_cons.1 hnodup
    have hj := hlt j (List.mem_cons_self ..)
    have hF : (Fs.mapIdx fun k F => if k ∈ j :: xs then F else F.collapseParent a)[j]? = some Fs[j] := by
      simp [hj]
    have hcherry := hcl Fs[j] (List.getElem_mem hj)
    obtain ⟨s, -, hheld⟩ := hm.get hF
    have hv := hheld.wellFormed.valid
    obtain ⟨q, u, v, hq, pa, ma, pc, mc, hor⟩ := exists_cherry hv.distinct hcherry hne
    obtain ⟨action, s', hrun, hm', hkeeps⟩ := Body.collapseParent_eq hm hF hq (hor.imp And.left And.right) r
    refine ⟨false, _, hrun, hkeeps, fun h => absurd h Bool.noConfusion, fun _ =>
      ⟨hnodup, fun k hk => hlt k (List.mem_cons_of_mem _ hk), ?_⟩⟩
    have hset : (Fs.mapIdx fun k F => if k ∈ j :: xs then F else F.collapseParent a).set j (Fs[j].collapse q) =
        Fs.mapIdx fun k F => if k ∈ xs then F else F.collapseParent a := by
      refine List.ext_getElem (by simp) fun k hk hk' => ?_
      rw [List.getElem_set]
      simp only [List.getElem_mapIdx, List.mem_cons]
      by_cases hjk : j = k
      · subst hjk
        rw [if_pos rfl, if_neg hjxs, Forest.collapseParent_eq hv hq (hor.imp And.left And.right)]
      · rw [if_neg hjk]
        simp only [show ¬k = j from fun h => hjk h.symm, false_or]
    rwa [hset] at hm'
  have hloop := EarlyExit.Triple.forEach (I := I) hstep (List.range Fs.length)
  refine (hloop.congr ?_).conseq (fun y hy => ⟨List.nodup_range, fun j hj => List.mem_range.1 hj, ?_⟩) fun y hy => ?_
  · rintro ⟨r, m⟩ ⟨-, -, hm⟩
    rw [EqualPairReductionRule.apply, forEachForest, hm.length, List.length_mapIdx]
  · have hid : (Fs.mapIdx fun j F => if j ∈ List.range Fs.length then F else F.collapseParent a) = Fs := by
      refine List.ext_getElem (by simp) fun k hk hk' => ?_
      simp [hk']
    rwa [hid]
  · have hall : (Fs.mapIdx fun j F => if j ∈ ([] : List ℕ) then F else F.collapseParent a) =
        Fs.map (Forest.collapseParent a) := by
      refine List.ext_getElem (by simp) fun k hk hk' => ?_
      simp
    have := hy.2.2
    rwa [hall] at this

end EqualPairReductionRule

end Maf
