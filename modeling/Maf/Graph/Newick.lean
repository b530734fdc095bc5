/-
# Newick texts

What `ForestIO::ReadNewick` sees of a text: the characters of a tree up to its `;`
are the opening and closing of clades and the labels of terminals (`Event`), and a
text is refused for a foreign symbol, for a number that `std::stoi` cannot hold or
for a tree without any node (`lexTrees`).  A comma only ends a label.  A text that is
refused has been seen up to there (`seenTrees`).

The text of a topology (`Shape.newick`) has the events of a walk around it
(`Shape.events`, `lexTrees_newick`).
-/

import Maf.AgreementForest

namespace Maf
namespace Newick

/-- Why reading does not return. -/
inductive Failure where
  | exception (what : String)
  | undefined
  deriving DecidableEq

/-- What the characters of a tree tell the reader. -/
inductive Event where
  | clade
  | terminal (label : Label)
  | close
  deriving DecidableEq

/-- The lines that `getline` returns before it fails. -/
def lines : List Char → List (List Char)
  | [] => []
  | c :: cs =>
      if c = '\n' then [] :: lines cs
      else
        match lines cs with
        | [] => [[c]]
        | line :: rest => (c :: line) :: rest

/-- `std::stoi` on digits. -/
def stoi (label : List Char) : Except Failure Label :=
  if Nat.ofDigitChars 10 label 0 < 2 ^ 31 then .ok (Nat.ofDigitChars 10 label 0)
  else .error (.exception "stoi")

/-- The event of the label that stands before `,`, `)` or `;`, if there is one. -/
def lexLabel (label : List Char) : Except Failure (List Event) :=
  if label = [] then .ok []
  else do
    let lab ← stoi label
    .ok [.terminal lab]

/-- The events of a line, after the characters of a label, and whether the tree
ends. -/
def lexLine (label : List Char) : List Char → Except Failure (List Event × Bool)
  | [] => .ok ([], false)
  | c :: cs =>
      if c = ';' then do
        let es ← lexLabel label
        .ok (es, true)
      else if c = ',' then do
        let es ← lexLabel label
        let (fs, ended) ← lexLine [] cs
        .ok (es ++ fs, ended)
      else if c = ')' then do
        let es ← lexLabel label
        let (fs, ended) ← lexLine [] cs
        .ok (es ++ .close :: fs, ended)
      else if c = '(' then do
        let (fs, ended) ← lexLine label cs
        .ok (.clade :: fs, ended)
      else if c.isDigit then lexLine (label ++ [c]) cs
      else .error (.exception "TreeIO : ReadNewick : unexpected symbol")

/-- The events of a tree and the lines after it. -/
def lexTree : List (List Char) → Except Failure (List Event × List (List Char))
  | [] => .ok ([], [])
  | line :: rest =>
      if line = [] ∨ line.head? = some '#' then lexTree rest
      else do
        let (es, ended) ← lexLine [] line
        if ended then .ok (es, rest)
        else do
          let (fs, rest) ← lexTree rest
          .ok (es ++ fs, rest)

/-- The events of the given number of trees; each of them has a node. -/
def lexTrees : ℕ → List (List Char) → Except Failure (List (List Event))
  | 0, _ => .ok []
  | n + 1, ls => do
      let (es, rest) ← lexTree ls
      if es.all (· = .close) then
        .error (.exception "ForestIO : ReadNewick : no valid tree found in input")
      else do
        let ts ← lexTrees n rest
        .ok (es :: ts)

/-- The event of a label before its number is looked at. -/
def seenLabel (label : List Char) : List Event :=
  if label = [] then [] else [.terminal (Nat.ofDigitChars 10 label 0)]

/-- The events of a line up to its end, to the end of the tree or to where the text
is refused. -/
def seenLine (label : List Char) : List Char → List Event
  | [] => []
  | c :: cs =>
      if c = ';' then seenLabel label
      else if c = ',' then
        match lexLabel label with
        | .ok _ => seenLabel label ++ seenLine [] cs
        | .error _ => seenLabel label
      else if c = ')' then
        match lexLabel label with
        | .ok _ => seenLabel label ++ .close :: seenLine [] cs
        | .error _ => seenLabel label
      else if c = '(' then .clade :: seenLine label cs
      else if c.isDigit then seenLine (label ++ [c]) cs
      else []

/-- The events of a tree up to its end or to where the text is refused. -/
def seenTree : List (List Char) → List Event
  | [] => []
  | line :: rest =>
      if line = [] ∨ line.head? = some '#' then seenTree rest
      else
        match lexLine [] line with
        | .ok (_, false) => seenLine [] line ++ seenTree rest
        | _ => seenLine [] line

/-- The events of the given number of trees, up to where the text is refused. -/
def seenTrees : ℕ → List (List Char) → List (List Event)
  | 0, _ => []
  | n + 1, ls =>
      seenTree ls ::
        match lexTree ls with
        | .ok (es, rest) => if es.all (· = .close) then [] else seenTrees n rest
        | .error _ => []

/-- A label that is not refused is seen. -/
theorem seenLabel_eq {label : List Char} {es : List Event} (h : lexLabel label = .ok es) : seenLabel label = es := by
  unfold lexLabel at h
  unfold seenLabel
  split_ifs at h ⊢
  · exact Except.ok.inj h
  · unfold stoi at h
    split_ifs at h
    · exact Except.ok.inj h
    · cases h

/-- A line that is not refused is seen to its end. -/
theorem seenLine_eq {label cs : List Char} {r : List Event × Bool} (h : lexLine label cs = .ok r) :
    seenLine label cs = r.1 := by
  induction cs generalizing label r with
  | nil =>
      obtain rfl := Except.ok.inj h
      rfl
  | cons c cs ih =>
      unfold lexLine at h
      unfold seenLine
      split_ifs at h ⊢ with h₁ h₂ h₃ h₄ h₅
      · cases hl : lexLabel label with
        | error e =>
            rw [hl] at h
            cases h
        | ok es =>
            rw [hl] at h
            obtain rfl := Except.ok.inj h
            exact seenLabel_eq hl
      · cases hl : lexLabel label with
        | error e =>
            rw [hl] at h
            cases h
        | ok es =>
            rw [hl] at h
            cases hr : lexLine [] cs with
            | error e =>
                rw [hr] at h
                cases h
            | ok q =>
                rw [hr] at h
                obtain rfl := Except.ok.inj h
                rw [seenLabel_eq hl, ih hr]
      · cases hl : lexLabel label with
        | error e =>
            rw [hl] at h
            cases h
        | ok es =>
            rw [hl] at h
            cases hr : lexLine [] cs with
            | error e =>
                rw [hr] at h
                cases h
            | ok q =>
                rw [hr] at h
                obtain rfl := Except.ok.inj h
                rw [seenLabel_eq hl, ih hr]
      · cases hr : lexLine label cs with
        | error e =>
            rw [hr] at h
            cases h
        | ok q =>
            rw [hr] at h
            obtain rfl := Except.ok.inj h
            rw [ih hr]
      · exact ih h

/-- A tree that is not refused is seen to its end. -/
theorem seenTree_eq {ls : List (List Char)} {r : List Event × List (List Char)} (h : lexTree ls = .ok r) :
    seenTree ls = r.1 := by
  induction ls generalizing r with
  | nil =>
      obtain rfl := Except.ok.inj h
      rfl
  | cons line rest ih =>
      unfold lexTree at h
      unfold seenTree
      split_ifs at h ⊢
      · exact ih h
      · cases hl : lexLine [] line with
        | error e =>
            rw [hl] at h
            cases h
        | ok q =>
            obtain ⟨es, ended⟩ := q
            rw [hl] at h
            cases ended with
            | true =>
                obtain rfl := Except.ok.inj h
                exact seenLine_eq hl
            | false =>
                cases hr : lexTree rest with
                | error e =>
                    simp only [bind, Except.bind, hr] at h
                    cases h
                | ok q =>
                    simp only [bind, Except.bind, hr] at h
                    obtain rfl := Except.ok.inj h
                    show seenLine [] line ++ seenTree rest = es ++ q.1
                    rw [seenLine_eq hl, ih hr]

/-- **A text that is not refused is seen to its end.** -/
theorem seenTrees_eq {n : ℕ} {ls : List (List Char)} {ess : List (List Event)} (h : lexTrees n ls = .ok ess) :
    seenTrees n ls = ess := by
  induction n generalizing ls ess with
  | zero =>
      obtain rfl := Except.ok.inj h
      rfl
  | succ n ih =>
      unfold lexTrees at h
      unfold seenTrees
      cases hl : lexTree ls with
      | error e =>
          rw [hl] at h
          cases h
      | ok q =>
          obtain ⟨es, rest⟩ := q
          rw [hl] at h
          simp only [bind, Except.bind] at h
          split_ifs at h with hall
          cases hr : lexTrees n rest with
          | error e =>
              rw [hr] at h
              cases h
          | ok ts =>
              rw [hr] at h
              obtain rfl := Except.ok.inj h
              simp only [hall, Bool.false_eq_true, if_false, ih hr]
              rw [seenTree_eq hl]

end Newick

namespace Shape

open Newick

/-- The text of a topology. -/
def newick : Shape → List Char
  | tip x => Nat.toDigits 10 x
  | join a b => '(' :: (a.newick ++ ',' :: (b.newick ++ [')']))

/-- The number of nodes. -/
def size : Shape → ℕ
  | tip _ => 1
  | join a b => a.size + b.size + 1

/-- No label occurs twice. -/
def Distinct : Shape → Prop
  | tip _ => True
  | join a b => a.Distinct ∧ b.Distinct ∧ Disjoint a.labels b.labels

/-- No label occurs twice in some topologies. -/
def AllDistinct (ts : List Shape) : Prop :=
  (∀ t ∈ ts, t.Distinct) ∧ ts.Pairwise fun t u => Disjoint t.labels u.labels

/-- The topology as a tree, its nodes from the address `p` on, each before those of
its first and these before those of its second child. -/
def build (p : Ptr) : Shape → Tree
  | tip x => .leaf p x ∅
  | join a b => .node p (a.build (p + 1)) (b.build (p + 1 + a.size))

/-- Some topologies as trees, one behind the other. -/
def row (f : Ptr → Shape → Tree) : Ptr → List Shape → Forest
  | _, [] => []
  | p, t :: ts => f p t :: row f (p + t.size) ts

/-- The number of nodes of some topologies. -/
def sizes (ts : List Shape) : ℕ := (ts.map size).sum

/-- The walk around a topology. -/
def events : Shape → List Event
  | tip x => [.terminal x]
  | join a b => .clade :: (a.events ++ (b.events ++ [.close]))

/-- Every topology has a node. -/
theorem size_pos (t : Shape) : 0 < t.size := by cases t <;> simp [size]

/-- A topology is built at its address. -/
@[simp] theorem ptr_build (p : Ptr) (t : Shape) : (t.build p).ptr = p := by cases t <;> rfl

/-- A topology takes up the addresses from its own on. -/
theorem ptrs_build (p : Ptr) (t : Shape) : (t.build p).ptrs = List.range' p t.size := by
  induction t generalizing p with
  | tip x => rfl
  | join a b iha ihb =>
      rw [build, Tree.ptrs, iha, ihb, size, List.range'_succ, List.range'_append_1]

/-- The tree that is built has the labels of the topology. -/
@[simp] theorem labels_build (p : Ptr) (t : Shape) : (t.build p).labels = t.labels := by
  induction t generalizing p with
  | tip x => rfl
  | join a b iha ihb => rw [build, Tree.labels, iha, ihb, labels]

end Shape

namespace Newick

/-- The text of some topologies, a line for each. -/
def text (ts : List Shape) : List Char := ts.flatMap fun t => t.newick ++ [';', '\n']

/-- The first line ends at the first line break. -/
theorem lines_append {cs rest : List Char} (h : '\n' ∉ cs) : lines (cs ++ '\n' :: rest) = cs :: lines rest := by
  induction cs with
  | nil => simp [lines]
  | cons c cs ih =>
      rw [List.mem_cons, not_or] at h
      rw [List.cons_append, lines, if_neg (Ne.symm h.1), ih h.2]

/-- A number is written in digits. -/
theorem isDigit_of_mem_digits {x : Label} {c : Char} (h : c ∈ Nat.toDigits 10 x) : c.isDigit = true :=
  Nat.isDigit_of_mem_toDigits (by decide) (by decide) h

/-- Digits are added to the label. -/
theorem lexLine_digits {ds label cs : List Char} (h : ∀ c ∈ ds, c.isDigit = true) :
    lexLine label (ds ++ cs) = lexLine (label ++ ds) cs := by
  induction ds generalizing label with
  | nil => simp
  | cons d ds ih =>
      have hd := h d (List.mem_cons_self ..)
      have hne : ∀ {c : Char}, c.isDigit = false → d ≠ c := by
        rintro c hc rfl
        rw [hd] at hc
        cases hc
      rw [List.cons_append, lexLine, if_neg (hne (by decide)), if_neg (hne (by decide)), if_neg (hne (by decide)),
        if_neg (hne (by decide)), if_pos hd, ih fun c hc => h c (List.mem_cons_of_mem _ hc)]
      simp

/-- A number that is written is read back. -/
theorem lexLabel_digits {x : Label} (h : x < 2 ^ 31) : lexLabel (Nat.toDigits 10 x) = .ok [.terminal x] := by
  rw [lexLabel, if_neg Nat.toDigits_ne_nil, stoi, Nat.ofDigitChars_ten_toDigits, if_pos h]
  rfl

/-- The label before one of the three characters that end it. -/
theorem lexLine_label {label : List Char} {es : List Event} (h : lexLabel label = .ok es) {c : Char}
    (hc : c = ',' ∨ c = ')' ∨ c = ';') (cs : List Char) :
    lexLine label (c :: cs) = (lexLine [] (c :: cs)).map fun r => (es ++ r.1, r.2) := by
  have hnil : lexLabel [] = .ok [] := rfl
  rcases hc with rfl | rfl | rfl
  · rw [lexLine, lexLine]
    simp only [Char.reduceEq, if_false, if_true, h, hnil]
    cases lexLine [] cs <;> rfl
  · rw [lexLine, lexLine]
    simp only [Char.reduceEq, if_false, if_true, h, hnil]
    cases lexLine [] cs <;> rfl
  · rw [lexLine, lexLine]
    simp only [if_true, h, hnil]
    exact congrArg Except.ok (by simp)

/-- **A topology in a line**, before the character that ends it. -/
theorem lexLine_newick {t : Shape} (ht : ∀ x ∈ t.labels, x < 2 ^ 31) {c : Char}
    (hc : c = ',' ∨ c = ')' ∨ c = ';') (cs : List Char) :
    lexLine [] (t.newick ++ c :: cs) = (lexLine [] (c :: cs)).map fun r => (t.events ++ r.1, r.2) := by
  induction t generalizing c cs with
  | tip x =>
      rw [Shape.newick, lexLine_digits fun c hc => isDigit_of_mem_digits hc, List.nil_append,
        lexLine_label (lexLabel_digits (ht x (by simp))) hc]
      rfl
  | join a b iha ihb =>
      have ha := iha (fun x hx => ht x (by simp [hx])) (Or.inl rfl) (b.newick ++ ')' :: c :: cs)
      have hb := ihb (fun x hx => ht x (by simp [hx])) (Or.inr (Or.inl rfl)) (c :: cs)
      have hcomma : lexLine [] (',' :: (b.newick ++ ')' :: c :: cs)) = lexLine [] (b.newick ++ ')' :: c :: cs) := by
        rw [lexLine]
        simp only [Char.reduceEq, if_false, if_true]
        cases lexLine [] (b.newick ++ ')' :: c :: cs) <;> rfl
      have hclose : lexLine [] (')' :: c :: cs) = (lexLine [] (c :: cs)).map fun r => (.close :: r.1, r.2) := by
        rw [lexLine]
        simp only [Char.reduceEq, if_false, if_true]
        cases lexLine [] (c :: cs) <;> rfl
      rw [Shape.newick, List.cons_append, lexLine]
      simp only [Char.reduceEq, if_false, if_true, List.append_assoc, List.cons_append, List.nil_append]
      rw [ha, hcomma, hb, hclose]
      cases lexLine [] (c :: cs) with
      | error e => rfl
      | ok r => simp [Except.map, bind, Except.bind, Shape.events]

/-- A tree is written on one line. -/
theorem newline_notMem_newick (t : Shape) : '\n' ∉ t.newick := by
  induction t with
  | tip x =>
      intro h
      exact absurd (isDigit_of_mem_digits h) (by decide)
  | join a b iha ihb => simp [Shape.newick, iha, ihb]

/-- A tree does not start like a comment. -/
theorem head_newick (t : Shape) (cs : List Char) : (t.newick ++ cs).head? ≠ some '#' := by
  cases t with
  | tip x =>
      intro h
      have hmem : '#' ∈ Nat.toDigits 10 x := by
        cases hd : Nat.toDigits 10 x with
        | nil => exact absurd hd Nat.toDigits_ne_nil
        | cons d ds =>
            rw [Shape.newick, hd, List.cons_append, List.head?_cons] at h
            rw [Option.some.inj h]
            exact List.mem_cons_self ..
      exact absurd (isDigit_of_mem_digits hmem) (by decide)
  | join a b => simp [Shape.newick]

/-- A tree does not consist of closing brackets only. -/
theorem events_not_all_close (t : Shape) : t.events.all (· = .close) = false := by
  cases t <;> rfl

/-- **The events of written topologies.** -/
theorem lexTrees_text {ts : List Shape} (h : ∀ t ∈ ts, ∀ x ∈ t.labels, x < 2 ^ 31) :
    lexTrees ts.length (lines (text ts)) = .ok (ts.map Shape.events) := by
  induction ts with
  | nil => rfl
  | cons t ts ih =>
      have hline : lines (text (t :: ts)) = (t.newick ++ [';']) :: lines (text ts) := by
        have hnl : '\n' ∉ t.newick ++ [';'] := by simp [newline_notMem_newick]
        rw [← lines_append hnl]
        simp [text]
      have hlex : lexLine [] (t.newick ++ [';']) = .ok (t.events, true) := by
        rw [lexLine_newick (h t (List.mem_cons_self ..)) (Or.inr (Or.inr rfl))]
        simp [lexLine, lexLabel, Except.map, bind, Except.bind]
      have htree : lexTree ((t.newick ++ [';']) :: lines (text ts)) = .ok (t.events, lines (text ts)) := by
        rw [lexTree, if_neg, hlex]
        · rfl
        · rw [not_or]
          exact ⟨by simp, head_newick t _⟩
      rw [List.length_cons, lexTrees, hline, htree]
      simp only [bind, Except.bind, events_not_all_close, Bool.false_eq_true, if_false,
        ih fun u hu => h u (List.mem_cons_of_mem _ hu)]
      rfl

end Newick
end Maf
