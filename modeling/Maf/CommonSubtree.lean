/-
# Common pendant subtrees

Two trees are identical when one becomes the other by turning children around and
moving nodes to other addresses (`Tree.Identical`).  A subtree of a forest is common
when each of some other forests has an identical one, and maximal when it lies in no
larger common subtree (`IsMaximalCommon`).

The maximal common subtrees are what one reaches by climbing from a common subtree
as long as the siblings are identical too (`IsCommon.parent`, `isMaximalCommon_iff`), and
no two of them overlap (`IsMaximalCommon.eq_of_mem`).
-/

import Maf.Bitset
import Maf.Forest

namespace Maf

open Bitset (encode Within)

namespace Tree

/-- The same topology with the same terminals. -/
def Identical : Tree → Tree → Prop
  | leaf _ x m, leaf _ y m' => x = y ∧ m = m'
  | node _ l r, node _ l' r' => Identical l l' ∧ Identical r r' ∨ Identical l r' ∧ Identical r l'
  | _, _ => False

instance decidableIdentical : (s t : Tree) → Decidable (s.Identical t)
  | leaf _ x m, leaf _ y m' => inferInstanceAs (Decidable (x = y ∧ m = m'))
  | node _ l r, node _ l' r' =>
      have := decidableIdentical l l'
      have := decidableIdentical r r'
      have := decidableIdentical l r'
      have := decidableIdentical r l'
      inferInstanceAs (Decidable (Identical l l' ∧ Identical r r' ∨ Identical l r' ∧ Identical r l'))
  | leaf .., node .. => inferInstanceAs (Decidable False)
  | node .., leaf .. => inferInstanceAs (Decidable False)

/-- A tree is identical to itself. -/
theorem Identical.refl (t : Tree) : t.Identical t := by
  induction t with
  | leaf => exact ⟨rfl, rfl⟩
  | node p l r ihl ihr => exact Or.inl ⟨ihl, ihr⟩

/-- Being identical is symmetric. -/
theorem Identical.symm {s t : Tree} (h : s.Identical t) : t.Identical s := by
  induction s generalizing t with
  | leaf p x m =>
      cases t with
      | leaf q y m' => exact ⟨h.1.symm, h.2.symm⟩
      | node => exact h
  | node p l r ihl ihr =>
      cases t with
      | leaf => exact h
      | node q l' r' =>
          rcases h with ⟨hl, hr⟩ | ⟨hl, hr⟩
          · exact Or.inl ⟨ihl hl, ihr hr⟩
          · exact Or.inr ⟨ihr hr, ihl hl⟩

/-- Being identical is transitive. -/
theorem Identical.trans {s t u : Tree} (h : s.Identical t) (h' : t.Identical u) : s.Identical u := by
  induction s generalizing t u with
  | leaf p x m =>
      cases t with
      | node => exact h.elim
      | leaf q y m' =>
          cases u with
          | node => exact h'
          | leaf => exact ⟨h.1.trans h'.1, h.2.trans h'.2⟩
  | node p l r ihl ihr =>
      cases t with
      | leaf => exact h.elim
      | node q l' r' =>
          cases u with
          | leaf => exact h'
          | node q' l'' r'' =>
              rcases h with ⟨hl, hr⟩ | ⟨hl, hr⟩ <;> rcases h' with ⟨hl', hr'⟩ | ⟨hl', hr'⟩
              · exact Or.inl ⟨ihl hl hl', ihr hr hr'⟩
              · exact Or.inr ⟨ihl hl hl', ihr hr hr'⟩
              · exact Or.inr ⟨ihl hl hr', ihr hr hl'⟩
              · exact Or.inl ⟨ihl hl hr', ihr hr hl'⟩

/-- Identical trees have the same labels. -/
theorem Identical.labels_eq {s t : Tree} (h : s.Identical t) : s.labels = t.labels := by
  induction s generalizing t with
  | leaf p x m =>
      cases t with
      | leaf => rw [labels, labels, h.1]
      | node => exact h.elim
  | node p l r ihl ihr =>
      cases t with
      | leaf => exact h.elim
      | node q l' r' =>
          rw [labels, labels]
          rcases h with ⟨hl, hr⟩ | ⟨hl, hr⟩
          · rw [ihl hl, ihr hr]
          · rw [ihl hl, ihr hr, Finset.union_comm]

/-- Identical trees have the same terminals. -/
theorem Identical.subtreeTerminals_eq {s t : Tree} (h : s.Identical t) : s.subtreeTerminals = t.subtreeTerminals := by
  induction s generalizing t with
  | leaf p x m =>
      cases t with
      | leaf => rw [subtreeTerminals, subtreeTerminals, h.1, h.2]
      | node => exact h.elim
  | node p l r ihl ihr =>
      cases t with
      | leaf => exact h.elim
      | node q l' r' =>
          rw [subtreeTerminals, subtreeTerminals]
          rcases h with ⟨hl, hr⟩ | ⟨hl, hr⟩
          · rw [ihl hl, ihr hr]
          · rw [ihl hl, ihr hr, Finset.union_comm]

/-- A tree identical to a leaf is a leaf. -/
theorem Identical.isTerminal_eq {s t : Tree} (h : s.Identical t) : s.isTerminal = t.isTerminal := by
  cases s <;> cases t
  · rfl
  · exact h.elim
  · exact h.elim
  · rfl

/-- Identical trees have the same least label. -/
theorem Identical.least_eq {s t : Tree} (hs : s.Valid) (ht : t.Valid) (h : s.Identical t) : s.least = t.least := by
  refine le_antisymm (hs.least_le ?_) (ht.least_le ?_)
  · exact labels_subset_subtreeTerminals _ (h.labels_eq ▸ t.least_mem_labels)
  · exact labels_subset_subtreeTerminals _ (h.labels_eq ▸ s.least_mem_labels)

/-- **In valid trees the children stand in the same order.** -/
theorem identical_node_iff {p q : Ptr} {l r l' r' : Tree} (hs : (node p l r).Valid) (ht : (node q l' r').Valid) :
    (node p l r).Identical (node q l' r') ↔ l.Identical l' ∧ r.Identical r' := by
  refine ⟨fun h => h.resolve_right ?_, Or.inl⟩
  rintro ⟨hl, hr⟩
  have hlt : l.least < r.least := hs.2.2.2
  rw [hl.least_eq hs.1 ht.2.1, hr.least_eq hs.2.1 ht.1] at hlt
  exact lt_asymm hlt ht.2.2.2

/-- Every subtree has its counterpart. -/
theorem Identical.exists_of_mem {s t u : Tree} (h : s.Identical t) (hu : u ∈ s.subtrees) :
    ∃ w ∈ t.subtrees, u.Identical w := by
  induction s generalizing t with
  | leaf => exact ⟨t, t.mem_subtrees_self, List.mem_singleton.1 hu ▸ h⟩
  | node p l r ihl ihr =>
      cases t with
      | leaf => exact h.elim
      | node q l' r' =>
          rcases mem_subtrees_node.1 hu with rfl | hu | hu
          · exact ⟨_, mem_subtrees_self _, h⟩
          · rcases h with ⟨hl, -⟩ | ⟨hl, -⟩
            · obtain ⟨w, hw, huw⟩ := ihl hl hu
              exact ⟨w, mem_subtrees_node.2 (Or.inr (Or.inl hw)), huw⟩
            · obtain ⟨w, hw, huw⟩ := ihl hl hu
              exact ⟨w, mem_subtrees_node.2 (Or.inr (Or.inr hw)), huw⟩
          · rcases h with ⟨-, hr⟩ | ⟨-, hr⟩
            · obtain ⟨w, hw, huw⟩ := ihr hr hu
              exact ⟨w, mem_subtrees_node.2 (Or.inr (Or.inr hw)), huw⟩
            · obtain ⟨w, hw, huw⟩ := ihr hr hu
              exact ⟨w, mem_subtrees_node.2 (Or.inr (Or.inl hw)), huw⟩

/-- `hasSameTerminals`; all nodes have the same number of words. -/
def hasSameTerminals (width : ℕ) (node other : Tree) : Bool :=
  decide (encode width node.subtreeTerminals = encode width other.subtreeTerminals)

/-- The words are equal exactly when the terminals are. -/
theorem hasSameTerminals_iff {width : ℕ} {s t : Tree} (hs : Within width s.subtreeTerminals)
    (ht : Within width t.subtreeTerminals) :
    s.hasSameTerminals width t = true ↔ s.subtreeTerminals = t.subtreeTerminals :=
  decide_eq_true_iff.trans ⟨fun h => Bitset.encode_inj hs ht h, congrArg (encode width)⟩

end Tree

namespace Forest

variable {F G : Forest} {Gs : List Forest} {u v w n : Tree}

/-- A valid forest whose labels fit into the words. -/
structure Fits (width : ℕ) (F : Forest) : Prop where
  valid : F.Valid
  within : ∀ t ∈ F, Within width t.subtreeTerminals

/-- The subtrees of a forest that fits are valid and fit. -/
theorem Fits.of_mem {width : ℕ} (hF : F.Fits width) (hv : v ∈ F.subtrees) :
    v.Valid ∧ Within width v.subtreeTerminals := by
  obtain ⟨t, ht, hvt⟩ := mem_subtrees.1 hv
  exact ⟨(hF.valid.tree t ht).of_mem_subtrees hvt,
    (hF.within t ht).mono (Tree.subtreeTerminals_subset_of_mem_subtrees hvt)⟩

/-- The two forests have the same terminals. -/
def SameTerminals (F G : Forest) : Prop :=
  ∀ x m, (∃ p, Tree.leaf p x m ∈ F.subtrees) ↔ ∃ p, Tree.leaf p x m ∈ G.subtrees

/-- Forests with the same terminals have the same labels. -/
theorem labels_eq_of_sameTerminals {F G : Forest} (h : F.SameTerminals G) : F.labels = G.labels := by
  ext x
  simp only [mem_labels_iff_leaf]
  rw [exists_comm, exists_comm (p := fun q m => Tree.leaf q x m ∈ G.subtrees)]
  exact exists_congr fun m => h x m

/-- Nodes with the same labels below them have the same terminals below them. -/
theorem labels_eq_of_subtreeTerminals_eq {F G : Forest} (hF : F.Valid) (hG : G.Valid) (hsame : F.SameTerminals G)
    {v w : Tree} (hv : v ∈ F.subtrees) (hw : w ∈ G.subtrees) (h : v.subtreeTerminals = w.subtreeTerminals) :
    v.labels = w.labels := by
  have sub : ∀ {F G : Forest}, G.Valid → F.SameTerminals G → ∀ {v w : Tree}, v ∈ F.subtrees → w ∈ G.subtrees →
      v.subtreeTerminals = w.subtreeTerminals → v.labels ⊆ w.labels := by
    intro F G hG hsame v w hv hw h x hx
    obtain ⟨p, m, hl⟩ := Tree.exists_leaf hx
    obtain ⟨t, ht, hvt⟩ := mem_subtrees.1 hv
    obtain ⟨q, hq⟩ := (hsame x m).1 ⟨p, mem_subtrees.2 ⟨t, ht, Tree.subtrees_trans hl hvt⟩⟩
    obtain ⟨s, hs, hterm, hxs⟩ := Tree.exists_terminal (h ▸ Tree.labels_subset_subtreeTerminals v hx)
    obtain ⟨t', ht', hwt⟩ := mem_subtrees.1 hw
    have hsG : s ∈ G.subtrees := mem_subtrees.2 ⟨t', ht', Tree.subtrees_trans hs hwt⟩
    have hfound := (labelToTerminal_eq_some_iff hG).2 ⟨hsG, hterm, hxs⟩
    obtain rfl := Option.some.inj ((labelToTerminal_leaf hG hq).symm.trans hfound)
    exact Tree.labels_subset_of_mem_subtrees hs (Finset.mem_singleton_self x)
  exact Finset.Subset.antisymm (sub hG hsame hv hw h) (sub hF (fun x m => (hsame x m).symm) hw hv h.symm)

/-- A subtree has no more nodes than the forest. -/
theorem length_subtrees_le (hv : v ∈ F.subtrees) : v.subtrees.length ≤ F.subtrees.length := by
  obtain ⟨t, ht, hvt⟩ := mem_subtrees.1 hv
  obtain ⟨A, B, rfl⟩ := List.append_of_mem ht
  have := Tree.length_subtrees_le hvt
  simp only [subtrees, List.flatMap_append, List.flatMap_cons, List.length_append]
  omega

/-- A node with a parent has a sibling. -/
theorem exists_sibling (hF : F.Distinct) {p : Tree} (hp : F.parent u = some p) :
    ∃ s, F.sibling u = some s ∧ s ∈ F.subtrees := by
  obtain ⟨hpF, hc⟩ := (parent_eq_some_iff hF).1 hp
  obtain ⟨q, l, r, rfl, hlr⟩ := Tree.hasChild_iff.1 hc
  obtain ⟨hl, hr⟩ := mem_subtrees_children hpF
  rcases hlr with rfl | rfl
  · exact ⟨r, (sibling_eq_some_iff hF).2 ⟨q, Or.inl hpF⟩, hr⟩
  · exact ⟨l, (sibling_eq_some_iff hF).2 ⟨q, Or.inr hpF⟩, hl⟩

/-- Identical subtrees of a forest are one. -/
theorem eq_of_identical (hF : F.Distinct) (hu : u ∈ F.subtrees) (hv : v ∈ F.subtrees) (h : u.Identical v) : u = v :=
  eq_of_labels_eq hF hu hv h.labels_eq

/-- The subtree occurs in each of the forests. -/
def IsCommon (F : Forest) (Gs : List Forest) (v : Tree) : Prop :=
  v ∈ F.subtrees ∧ ∀ G ∈ Gs, ∃ w ∈ G.subtrees, v.Identical w

/-- No larger subtree does. -/
def IsMaximalCommon (F : Forest) (Gs : List Forest) (v : Tree) : Prop :=
  IsCommon F Gs v ∧ ∀ u, IsCommon F Gs u → v ∈ u.subtrees → u = v

/-- What lies in a common subtree is common. -/
theorem IsCommon.of_mem (h : IsCommon F Gs v) (hu : u ∈ v.subtrees) : IsCommon F Gs u := by
  obtain ⟨hv, hall⟩ := h
  obtain ⟨t, ht, hvt⟩ := mem_subtrees.1 hv
  refine ⟨mem_subtrees.2 ⟨t, ht, Tree.subtrees_trans hu hvt⟩, fun G hG => ?_⟩
  obtain ⟨w, hw, hvw⟩ := hall G hG
  obtain ⟨w', hw', huw⟩ := hvw.exists_of_mem hu
  obtain ⟨t', ht', hwt⟩ := mem_subtrees.1 hw
  exact ⟨w', mem_subtrees.2 ⟨t', ht', Tree.subtrees_trans hw' hwt⟩, huw⟩

/-- **Maximal common subtrees do not overlap.** -/
theorem IsMaximalCommon.eq_of_mem (hF : F.Distinct) (hu : IsMaximalCommon F Gs u) (hv : IsMaximalCommon F Gs v)
    {x : Label} (hxu : x ∈ u.labels) (hxv : x ∈ v.labels) : u = v := by
  rcases (hierarchy hF).nested _ (labels_mem_clusters hu.1.1) _ (labels_mem_clusters hv.1.1) with h | h | h
  · exact (hu.2 v hv.1 (mem_subtrees_of_subset hF hu.1.1 hv.1.1 h)).symm
  · exact hv.2 u hu.1 (mem_subtrees_of_subset hF hv.1.1 hu.1.1 h)
  · exact absurd hxv (Finset.disjoint_left.1 h hxu)

/-- A node strictly inside a subtree has its parent there. -/
theorem exists_parent_of_mem (hF : F.Distinct) (hu : u ∈ F.subtrees) (hn : n ∈ u.subtrees) (hne : n ≠ u) :
    ∃ p, F.parent n = some p ∧ p ∈ u.subtrees := by
  obtain ⟨t, ht, hut⟩ := mem_subtrees.1 hu
  have hroot := (root_or_child (F := [u]) (mem_subtrees.2 ⟨u, List.mem_singleton_self u, hn⟩)).resolve_left
    fun h => hne (List.mem_singleton.1 h)
  obtain ⟨q, l, r, hq, hlr⟩ := hroot
  obtain ⟨u', hu', hqu⟩ := mem_subtrees.1 hq
  rw [List.mem_singleton.1 hu'] at hqu
  refine ⟨_, (parent_eq_some_iff hF).2 ⟨mem_subtrees.2 ⟨t, ht, Tree.subtrees_trans hqu hut⟩, ?_⟩, hqu⟩
  exact hlr.imp Eq.symm Eq.symm

/-- **A common subtree is maximal exactly when its parent is not common.** -/
theorem isMaximalCommon_iff (hF : F.Distinct) (hv : IsCommon F Gs v) :
    IsMaximalCommon F Gs v ↔ ∀ p, F.parent v = some p → ¬IsCommon F Gs p := by
  constructor
  · intro h p hp hcom
    obtain ⟨hpF, hc⟩ := (parent_eq_some_iff hF).1 hp
    obtain ⟨q, l, r, rfl, hlr⟩ := Tree.hasChild_iff.1 hc
    have hmem : v ∈ (Tree.node q l r).subtrees := by
      rcases hlr with rfl | rfl
      · exact Tree.mem_subtrees_node.2 (Or.inr (Or.inl (Tree.mem_subtrees_self _)))
      · exact Tree.mem_subtrees_node.2 (Or.inr (Or.inr (Tree.mem_subtrees_self _)))
    have := h.2 _ hcom hmem
    rcases hlr with rfl | rfl
    · have := congrArg sizeOf this
      simp only [Tree.node.sizeOf_spec] at this
      omega
    · have := congrArg sizeOf this
      simp only [Tree.node.sizeOf_spec] at this
      omega
  · intro h
    refine ⟨hv, fun u hu hvu => ?_⟩
    by_contra hne
    obtain ⟨p, hp, hpu⟩ := exists_parent_of_mem hF hu.1 hvu (Ne.symm hne)
    exact h p hp (hu.of_mem hpu)

/-- **Every common subtree lies in a maximal one.** -/
theorem IsCommon.exists_maximal (hF : F.Distinct) (hv : IsCommon F Gs v) :
    ∃ u, IsMaximalCommon F Gs u ∧ v ∈ u.subtrees := by
  induction hk : F.subtrees.length - v.subtrees.length using Nat.strong_induction_on generalizing v with
  | _ k ih =>
      by_cases h : ∀ p, F.parent v = some p → ¬IsCommon F Gs p
      · exact ⟨v, (isMaximalCommon_iff hF hv).2 h, v.mem_subtrees_self⟩
      · push Not at h
        obtain ⟨p, hp, hcom⟩ := h
        have := length_subtrees_lt_parent hF hp
        have := length_subtrees_le hcom.1
        obtain ⟨u, hu, hpu⟩ := ih (F.subtrees.length - p.subtrees.length) (by omega) hcom rfl
        obtain ⟨q, l, r, rfl, hlr⟩ := Tree.hasChild_iff.1 ((parent_eq_some_iff hF).1 hp).2
        have hvp : v ∈ (Tree.node q l r).subtrees := by
          rw [Tree.mem_subtrees_node]
          rcases hlr with h | h
          · exact Or.inr (Or.inl (h ▸ Tree.mem_subtrees_self _))
          · exact Or.inr (Or.inr (h ▸ Tree.mem_subtrees_self _))
        exact ⟨u, hu, Tree.subtrees_trans hvp hpu⟩

/-- A common subtree is common from the side of each forest. -/
theorem IsCommon.counterpart (hG : G ∈ Gs) (h : IsCommon F Gs v) : ∃ w, v.Identical w ∧ IsCommon G Gs w := by
  obtain ⟨w, hw, hvw⟩ := h.2 G hG
  refine ⟨w, hvw, hw, fun H hH => ?_⟩
  obtain ⟨x, hx, hvx⟩ := h.2 H hH
  exact ⟨x, hx, hvw.symm.trans hvx⟩

/-- A maximal common subtree is maximal from the side of each forest. -/
theorem IsMaximalCommon.counterpart (hF : F.Distinct) (hG : G.Distinct) (hFG : F ∈ Gs) (hGG : G ∈ Gs)
    (h : IsMaximalCommon F Gs v) (hw : w ∈ G.subtrees) (hvw : v.Identical w) : IsMaximalCommon G Gs w := by
  obtain ⟨w', hvw', hcom⟩ := h.1.counterpart hGG
  obtain rfl := eq_of_identical hG hw hcom.1 (hvw.symm.trans hvw')
  refine ⟨hcom, fun u hu hwu => ?_⟩
  obtain ⟨u', huu', hu'⟩ := hu.counterpart hFG
  obtain ⟨v', hv', hwv'⟩ := huu'.exists_of_mem hwu
  have hv'F := (hu'.of_mem hv').1
  obtain rfl := eq_of_identical hF hv'F h.1.1 (hwv'.symm.trans hvw.symm)
  obtain rfl := h.2 u' hu' hv'
  exact eq_of_identical hG hu.1 hw (huu'.trans hvw)

/-- Two nodes with identical siblings have identical parents. -/
theorem identical_parent (hF : F.Distinct) (hG : G.Distinct) {a b sa sb pa pb : Tree} (hab : a.Identical b)
    (hs : sa.Identical sb) (hsa : F.sibling a = some sa) (hsb : G.sibling b = some sb) (hpa : F.parent a = some pa)
    (hpb : G.parent b = some pb) : pa.Identical pb := by
  obtain ⟨p, hp⟩ := (sibling_eq_some_iff hF).1 hsa
  obtain ⟨q, hq⟩ := (sibling_eq_some_iff hG).1 hsb
  have up : ∀ {H : Forest} (hH : H.Distinct) {n m y : Tree} {p : Ptr}, H.parent n = some y →
      (Tree.node p n m ∈ H.subtrees → Tree.node p n m = y) ∧ (Tree.node p m n ∈ H.subtrees → Tree.node p m n = y) := by
    intro H hH n m y p hy
    refine ⟨fun h => ?_, fun h => ?_⟩
    · exact Option.some.inj (((parent_eq_some_iff hH).2 ⟨h, Or.inl rfl⟩).symm.trans hy)
    · exact Option.some.inj (((parent_eq_some_iff hH).2 ⟨h, Or.inr rfl⟩).symm.trans hy)
  rcases hp with hp | hp <;> rcases hq with hq | hq
  · rw [← (up hF hpa).1 hp, ← (up hG hpb).1 hq]
    exact Or.inl ⟨hab, hs⟩
  · rw [← (up hF hpa).1 hp, ← (up hG hpb).2 hq]
    exact Or.inr ⟨hab, hs⟩
  · rw [← (up hF hpa).2 hp, ← (up hG hpb).1 hq]
    exact Or.inr ⟨hs, hab⟩
  · rw [← (up hF hpa).2 hp, ← (up hG hpb).2 hq]
    exact Or.inl ⟨hs, hab⟩

/-- **Identical parents have identical siblings**: where the parent of `a` occurs, it
is the parent of the counterpart of `a`. -/
theorem exists_of_identical_parent (hF : F.Distinct) (hG : G.Distinct) {a b pa w : Tree} (hb : b ∈ G.subtrees)
    (hab : a.Identical b) (hpa : F.parent a = some pa) (hw : w ∈ G.subtrees) (h : pa.Identical w) :
    G.parent b = some w ∧ ∃ sa sb, F.sibling a = some sa ∧ G.sibling b = some sb ∧ sa.Identical sb := by
  obtain ⟨hpaF, hc⟩ := (parent_eq_some_iff hF).1 hpa
  obtain ⟨p, l, r, rfl, hlr⟩ := Tree.hasChild_iff.1 hc
  cases w with
  | leaf => exact h.elim
  | node q l' r' =>
      obtain ⟨hl', hr'⟩ := mem_subtrees_children hw
      have same : ∀ {c : Tree}, c ∈ G.subtrees → a.Identical c → c = b := fun hc hac =>
        eq_of_identical hG hc hb (hac.symm.trans hab)
      rcases hlr with rfl | rfl <;> rcases h with ⟨hl, hr⟩ | ⟨hl, hr⟩
      · obtain rfl := same hl' hl
        exact ⟨(parent_eq_some_iff hG).2 ⟨hw, Or.inl rfl⟩, r, r', (sibling_eq_some_iff hF).2 ⟨p, Or.inl hpaF⟩,
          (sibling_eq_some_iff hG).2 ⟨q, Or.inl hw⟩, hr⟩
      · obtain rfl := same hr' hl
        exact ⟨(parent_eq_some_iff hG).2 ⟨hw, Or.inr rfl⟩, r, l', (sibling_eq_some_iff hF).2 ⟨p, Or.inl hpaF⟩,
          (sibling_eq_some_iff hG).2 ⟨q, Or.inr hw⟩, hr⟩
      · obtain rfl := same hr' hr
        exact ⟨(parent_eq_some_iff hG).2 ⟨hw, Or.inr rfl⟩, l, l', (sibling_eq_some_iff hF).2 ⟨p, Or.inr hpaF⟩,
          (sibling_eq_some_iff hG).2 ⟨q, Or.inr hw⟩, hl⟩
      · obtain rfl := same hl' hr
        exact ⟨(parent_eq_some_iff hG).2 ⟨hw, Or.inl rfl⟩, l, r', (sibling_eq_some_iff hF).2 ⟨p, Or.inr hpaF⟩,
          (sibling_eq_some_iff hG).2 ⟨q, Or.inl hw⟩, hl⟩

end Forest

end Maf
