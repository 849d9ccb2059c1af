import Mathlib.Data.List.Chain
import TreeText.Proofs.Token.Spelling
import TreeText.Tree.Canonical
import TreeText.Tree.Layout

/-!
# Trees by their outlines

The outline of a tree lists its values in preorder, each with its depth. It determines the tree: the
nodes below a node are the lines that follow while they are deeper. The canonical form of the tree,
and that of each of its nodes, can be read off the outline without rebuilding the tree.

The canonical form of a tree does not determine it, as values may hold spaces and parentheses. The
list of the canonical forms of all nodes in preorder does. The lines of the outline are found from
it one by one, the last one first: the mark in front of the value of the line behind tells whether a
node has children. If it has, it is one level above that line, and its value is what its canonical
form leaves in front of the known rest. If it has none, its canonical form is its value, and the
parentheses behind the value in the text of the whole tree tell its depth.

Results:
* `Tree.outline_injective`: different trees have different outlines.
* `Tree.isChain_outline`: from one line to the next, the depth grows by one at most.
* `Outline.spread_outline_root`: the canonical form by the outline.
* `Outline.forms_outline`: the canonical forms of all nodes by the outline.
* `Tree.eq_of_canonical_subtrees_eq`: the canonical forms of all nodes determine a tree.
-/

namespace TreeText

universe u

variable {α : Type u}

namespace Outline

/-- Whether `rest` can stand behind the lines of a node at depth `d`: it goes on at this depth or
further up. -/
def Follows (d : Nat) (rest : List (Nat × α)) : Prop := ∀ x ∈ rest.head?, x.1 ≤ d

theorem follows_nil (d : Nat) : Follows d ([] : List (Nat × α)) := by
  intro x hx
  nomatch hx

theorem Follows.mono {d e : Nat} {rest : List (Nat × α)} (h : Follows d rest) (hde : d ≤ e) :
    Follows e rest := by
  intro x hx
  have := h x hx
  omega

theorem Follows.outlineAll {d : Nat} {rest : List (Nat × α)} (h : Follows d rest)
    (cs : List (Tree α)) : Follows d (Tree.outlineAll d cs ++ rest) := by
  cases cs with
  | nil => exact h
  | cons c cs =>
    obtain ⟨v, ds⟩ := c
    intro x hx
    obtain rfl : (d, v) = x := by simpa [Tree.outlineAll, Tree.outline] using hx
    exact Nat.le_refl d

end Outline

namespace Tree

open Outline

/-- The lines of a node can be told from those behind it. -/
theorem outline_append_inj {t u : Tree α} {d : Nat} {rest rest' : List (Nat × α)}
    (hrest : Follows d rest) (hrest' : Follows d rest')
    (h : t.outline d ++ rest = u.outline d ++ rest') : t = u ∧ rest = rest' := by
  induction t generalizing u d rest rest' with
  | node v cs ih =>
    obtain ⟨w, ds⟩ := u
    simp only [outline, List.cons_append, List.cons.injEq, Prod.mk.injEq, true_and] at h
    obtain ⟨rfl, h⟩ := h
    have hall : cs = ds ∧ rest = rest' := by
      induction cs generalizing ds with
      | nil =>
        cases ds with
        | nil => exact ⟨rfl, h⟩
        | cons e ds =>
          -- the first child on the right is deeper than anything that follows on the left
          obtain ⟨x, es⟩ := e
          have := hrest (d + 1, x) (by simpa [outlineAll, outline] using congrArg List.head? h)
          simp only at this
          omega
      | cons c cs ihcs =>
        cases ds with
        | nil =>
          obtain ⟨x, es⟩ := c
          have := hrest' (d + 1, x) (by simpa [outlineAll, outline] using (congrArg List.head? h).symm)
          simp only at this
          omega
        | cons e ds =>
          simp only [outlineAll, List.append_assoc] at h
          obtain ⟨rfl, hbehind⟩ := ih c (List.mem_cons_self ..)
            ((hrest.mono (Nat.le_succ d)).outlineAll cs)
            ((hrest'.mono (Nat.le_succ d)).outlineAll ds) h
          obtain ⟨rfl, hrests⟩ := ihcs (fun c hc => ih c (List.mem_cons_of_mem _ hc)) ds hbehind
          exact ⟨rfl, hrests⟩
    exact ⟨by rw [hall.1], hall.2⟩

theorem outline_injective {t u : Tree α} {d : Nat} (h : t.outline d = u.outline d) : t = u :=
  (outline_append_inj (follows_nil d) (follows_nil d) (congrArg (· ++ []) h)).1

theorem isChain_outline_append {t : Tree α} {d : Nat} {rest : List (Nat × α)}
    (hrest : Follows (d + 1) rest) (h : rest.IsChain fun x y => y.1 ≤ x.1 + 1) :
    (t.outline d ++ rest).IsChain fun x y => y.1 ≤ x.1 + 1 := by
  induction t generalizing d rest with
  | node v cs ih =>
    have hall : (outlineAll (d + 1) cs ++ rest).IsChain fun x y => y.1 ≤ x.1 + 1 := by
      induction cs with
      | nil => exact h
      | cons c cs ihcs =>
        rw [outlineAll, List.append_assoc]
        exact ih c (List.mem_cons_self ..) ((hrest.outlineAll cs).mono (Nat.le_succ _))
          (ihcs fun c hc => ih c (List.mem_cons_of_mem _ hc))
    exact hall.cons (hrest.outlineAll cs)

theorem isChain_outline (t : Tree α) (d : Nat) :
    (t.outline d).IsChain fun x y => y.1 ≤ x.1 + 1 := by
  have h := isChain_outline_append (t := t) (follows_nil (d + 1)) .nil
  rwa [List.append_nil] at h

theorem le_depth_of_mem_outline {t : Tree α} {d : Nat} {x : Nat × α} (h : x ∈ t.outline d) :
    d ≤ x.1 := by
  induction t generalizing d with
  | node v cs ih =>
    rw [outline_node] at h
    rcases List.mem_cons.mp h with rfl | h
    · exact Nat.le_refl d
    · obtain ⟨c, hc, h⟩ := List.mem_flatMap.mp h
      have := ih c hc h
      omega

end Tree

namespace Outline

/-! ## Canonical forms by outlines -/

/-- What stands between the value of a line at depth `d` and that of the next line, at depth `e`:
the start of a block if it is deeper, and otherwise the ends of blocks and a space. -/
def link (d e : Nat) : List Char :=
  if d < e then [' ', '('] else List.replicate (d - e) ')' ++ [' ']

/-- The text that the lines of an outline stand for when its blocks are ended down to the depth
`base`. -/
def spread (base : Nat) : List (Nat × String) → List Char
  | [] => []
  | [(d, v)] => v.toList ++ List.replicate (d - base) ')'
  | (d, v) :: (e, w) :: lines => v.toList ++ (link d e ++ spread base ((e, w) :: lines))

/-- What stands behind the value of a line at depth `d`. -/
def behind (base d : Nat) (lines : List (Nat × String)) : List Char :=
  match lines with
  | [] => List.replicate (d - base) ')'
  | (e, _) :: _ => link d e ++ spread base lines

theorem spread_cons (base d : Nat) (v : String) (lines : List (Nat × String)) :
    spread base ((d, v) :: lines) = v.toList ++ behind base d lines := by
  cases lines <;> rfl

/-- A block that is ended at its end is one mark more. -/
theorem behind_succ {base d : Nat} {rest : List (Nat × String)} (hbase : base ≤ d)
    (hrest : Follows d rest) : behind base (d + 1) rest = ')' :: behind base d rest := by
  cases rest with
  | nil =>
    have hsub : d + 1 - base = (d - base) + 1 := by omega
    rw [behind, behind, hsub, List.replicate_succ]
  | cons x rest =>
    obtain ⟨e, w⟩ := x
    have he : e ≤ d := hrest (e, w) rfl
    have hsub : d + 1 - e = (d - e) + 1 := by omega
    have hnot : ¬ d + 1 < e := by omega
    have hnot' : ¬ d < e := by omega
    simp only [behind, link, hnot, hnot', if_false, hsub, List.replicate_succ, List.cons_append]

theorem toList_canonical_node (v : String) (c : Tree String) (cs : List (Tree String)) :
    (Tree.node v (c :: cs)).canonical.toList
      = v.toList ++ ([' ', '('] ++ (c.canonical.toList
        ++ (cs.flatMap (fun c => ' ' :: c.canonical.toList) ++ [')']))) := by
  rw [Tree.canonical_node v (List.cons_ne_nil c cs), List.map_cons]
  simp only [String.toList_append, toList_intercalate_cons, List.flatMap_map, toString,
    List.append_assoc]
  rfl

theorem behind_outline (base d e : Nat) (t : Tree String) (rest : List (Nat × String)) :
    behind base d (t.outline e ++ rest) = link d e ++ spread base (t.outline e ++ rest) := by
  obtain ⟨v, cs⟩ := t
  rfl

/-- The lines of a node stand for its canonical form. -/
theorem spread_outline {t : Tree String} {base d : Nat} {rest : List (Nat × String)}
    (hbase : base ≤ d) (hrest : Follows d rest) :
    spread base (t.outline d ++ rest) = t.canonical.toList ++ behind base d rest := by
  induction t generalizing d rest with
  | node v cs ih =>
    rw [Tree.outline, List.cons_append, spread_cons]
    cases cs with
    | nil => rfl
    | cons c cs =>
      have hall (ds : List (Tree String)) (hds : ∀ c ∈ ds, c ∈ cs) :
          behind base (d + 1) (Tree.outlineAll (d + 1) ds ++ rest)
            = ds.flatMap (fun c => ' ' :: c.canonical.toList) ++ ')' :: behind base d rest := by
        induction ds with
        | nil => exact behind_succ hbase hrest
        | cons e ds ihds =>
          have he := ih e (List.mem_cons_of_mem c (hds e (List.mem_cons_self ..)))
            (Nat.le_succ_of_le hbase) ((hrest.mono (Nat.le_succ d)).outlineAll ds)
          have hlink : link (d + 1) (d + 1) = [' '] := by simp [link]
          rw [Tree.outlineAll, List.append_assoc, behind_outline, hlink, he,
            ihds fun x hx => hds x (List.mem_cons_of_mem e hx)]
          simp
      have hc := ih c (List.mem_cons_self ..) (Nat.le_succ_of_le hbase)
        ((hrest.mono (Nat.le_succ d)).outlineAll cs)
      have hlink : link d (d + 1) = [' ', '('] := by simp [link]
      rw [Tree.outlineAll, List.append_assoc, behind_outline, hlink, hc,
        hall cs fun x hx => hx, toList_canonical_node]
      simp

theorem spread_outline_root (t : Tree String) (d : Nat) :
    spread d (t.outline d) = t.canonical.toList := by
  have h := spread_outline (t := t) (Nat.le_refl d) (follows_nil d)
  rwa [List.append_nil, behind, Nat.sub_self, List.replicate_zero, List.append_nil] at h

/-- The canonical forms of the nodes that the lines of an outline stand for, one for each line. -/
def forms : List (Nat × String) → List (List Char)
  | [] => []
  | (d, v) :: lines => spread d ((d, v) :: lines.takeWhile (d < ·.1)) :: forms lines

theorem Follows.takeWhile_outlineAll {d : Nat} {rest : List (Nat × String)}
    (h : Follows d rest) (cs : List (Tree String)) :
    (Tree.outlineAll (d + 1) cs ++ rest).takeWhile (d < ·.1) = Tree.outlineAll (d + 1) cs := by
  have hdeep : ∀ x ∈ Tree.outlineAll (d + 1) cs, decide (d < x.1) = true := by
    intro x hx
    rw [Tree.outlineAll_eq_flatMap] at hx
    obtain ⟨c, _, hx⟩ := List.mem_flatMap.mp hx
    have := Tree.le_depth_of_mem_outline hx
    exact decide_eq_true (by omega)
  rw [List.takeWhile_append_of_pos hdeep]
  cases rest with
  | nil => rw [List.takeWhile_nil, List.append_nil]
  | cons x rest =>
    have hx : ¬ d < x.1 := Nat.not_lt.mpr (h x rfl)
    rw [List.takeWhile_cons_of_neg (by simpa using hx), List.append_nil]

theorem forms_outline_append {t : Tree String} {d : Nat} {rest : List (Nat × String)}
    (hrest : Follows d rest) :
    forms (t.outline d ++ rest)
      = t.subtrees.map (fun u => u.canonical.toList) ++ forms rest := by
  induction t generalizing d rest with
  | node v cs ih =>
    have hall (ds : List (Tree String)) (hds : ∀ c ∈ ds, c ∈ cs) :
        forms (Tree.outlineAll (d + 1) ds ++ rest)
          = (Tree.subtreesAll ds).map (fun u => u.canonical.toList) ++ forms rest := by
      induction ds with
      | nil => rfl
      | cons e ds ihds =>
        rw [Tree.outlineAll, List.append_assoc, ih e (hds e (List.mem_cons_self ..))
            ((hrest.mono (Nat.le_succ d)).outlineAll ds),
          ihds fun x hx => hds x (List.mem_cons_of_mem e hx), Tree.subtreesAll, List.map_append,
          List.append_assoc]
    have hroot := spread_outline_root (Tree.node v cs) d
    rw [Tree.outline] at hroot ⊢
    rw [List.cons_append, forms, hrest.takeWhile_outlineAll, hroot, hall cs fun x hx => hx]
    rfl

/-- The canonical forms of the nodes of a tree can be read off its outline. -/
theorem forms_outline (t : Tree String) (d : Nat) :
    forms (t.outline d) = t.subtrees.map fun u => u.canonical.toList := by
  have h := forms_outline_append (t := t) (follows_nil d)
  rwa [List.append_nil, forms, List.append_nil] at h

theorem length_forms (lines : List (Nat × String)) : (forms lines).length = lines.length := by
  induction lines with
  | nil => rfl
  | cons x lines ih =>
    obtain ⟨d, v⟩ := x
    rw [forms, List.length_cons, List.length_cons, ih]

/-! ## Outlines by canonical forms -/

/-- How many ends of blocks a text ends in. -/
def closings (cs : List Char) : Nat := (cs.reverse.takeWhile (· == ')')).length

theorem closings_concat (cs : List Char) (c : Char) :
    closings (cs ++ [c]) = if c = ')' then closings cs + 1 else 0 := by
  by_cases hc : c = ')' <;> simp [closings, hc]

theorem closings_append_replicate (cs : List Char) (n : Nat) :
    closings (cs ++ List.replicate n ')') = closings cs + n := by
  induction n with
  | zero => rw [List.replicate_zero, List.append_nil, Nat.add_zero]
  | succ n ih =>
    rw [List.replicate_succ', ← List.append_assoc, closings_concat, if_pos rfl, ih, Nat.add_assoc]

theorem closings_append_cons {c : Char} (hc : c ≠ ')') (cs ds : List Char) :
    closings (cs ++ c :: ds) = closings ds := by
  induction ds using List.reverseRecOn with
  | nil => rw [closings_concat, if_neg hc]; rfl
  | append_singleton ds d ih =>
    rw [← List.cons_append, ← List.append_assoc, closings_concat, closings_concat, ih]

/-- The ends of blocks behind a value that both texts end in are as many, if no end of a block
stands in front of the value. -/
theorem replicate_inj_of_append {p q v : List Char} {c d : Char} (hc : c ≠ ')') (hd : d ≠ ')')
    {m n : Nat}
    (h : p ++ c :: (v ++ List.replicate m ')') = q ++ d :: (v ++ List.replicate n ')')) :
    m = n := by
  have hclosings := congrArg closings h
  rw [closings_append_cons hc, closings_append_cons hd, closings_append_replicate,
    closings_append_replicate] at hclosings
  omega

theorem link_of_lt {d e : Nat} (h : d < e) : link d e = [' ', '('] := if_pos h

theorem link_of_le {d e : Nat} (h : e ≤ d) : link d e = List.replicate (d - e) ')' ++ [' '] :=
  if_neg (Nat.not_lt.mpr h)

theorem exists_link_eq (d e : Nat) : ∃ cs, link d e = cs ++ [if d < e then '(' else ' '] := by
  by_cases h : d < e
  · exact ⟨[' '], by rw [link_of_lt h, if_pos h]; rfl⟩
  · exact ⟨List.replicate (d - e) ')', by rw [link_of_le (Nat.not_lt.mp h), if_neg h]⟩

/-- Whether a node has children is told by the mark in front of the next value. -/
theorem lt_iff_of_append_link_eq {cs ds : List Char} {d e g : Nat}
    (h : cs ++ link d g = ds ++ link e g) : d < g ↔ e < g := by
  obtain ⟨front, hd⟩ := exists_link_eq d g
  obtain ⟨front', he⟩ := exists_link_eq e g
  rw [hd, he, ← List.append_assoc, ← List.append_assoc] at h
  have hmark := (List.append_inj' h rfl).2
  by_cases hdg : d < g <;> by_cases heg : e < g <;> simp [hdg, heg] at hmark ⊢

/-- The lines of a text, with those behind the first one known, are determined by the text and the
canonical form of the first node. -/
theorem line_eq_of_spread_eq {d e : Nat} {v w : String} {lines : List (Nat × String)}
    (hd : ∀ x ∈ lines.head?, x.1 ≤ d + 1) (he : ∀ x ∈ lines.head?, x.1 ≤ e + 1)
    (hform : spread d ((d, v) :: lines.takeWhile (d < ·.1))
      = spread e ((e, w) :: lines.takeWhile (e < ·.1)))
    {p q : List Char} {a b : Char} (ha : a ≠ ')') (hb : b ≠ ')')
    (htext : p ++ a :: spread 0 ((d, v) :: lines) = q ++ b :: spread 0 ((e, w) :: lines)) :
    (d, v) = (e, w) := by
  cases lines with
  | nil =>
    simp only [List.takeWhile_nil, spread, Nat.sub_self, List.replicate_zero, List.append_nil,
      Nat.sub_zero] at hform htext
    rw [hform] at htext
    rw [replicate_inj_of_append ha hb htext, String.toList_inj.mp hform]
  | cons x lines =>
    obtain ⟨g, y⟩ := x
    have hgd : g ≤ d + 1 := hd (g, y) rfl
    have hge : g ≤ e + 1 := he (g, y) rfl
    -- the two texts up to the value of the next line
    have hfront : (p ++ a :: v.toList) ++ link d g = (q ++ b :: w.toList) ++ link e g := by
      have hwhole : (p ++ a :: v.toList) ++ link d g ++ spread 0 ((g, y) :: lines)
          = (q ++ b :: w.toList) ++ link e g ++ spread 0 ((g, y) :: lines) := by
        simpa only [spread, List.append_assoc, List.cons_append] using htext
      exact List.append_cancel_right hwhole
    have hsame := lt_iff_of_append_link_eq hfront
    by_cases hdg : d < g
    · -- both nodes have children, and the first one is one level below
      have heg := hsame.mp hdg
      obtain rfl : d = e := by omega
      rw [spread_cons, spread_cons] at hform
      rw [String.toList_inj.mp (List.append_cancel_right hform)]
    · -- both nodes are leaves
      have heg : ¬ e < g := fun h => hdg (hsame.mpr h)
      rw [List.takeWhile_cons_of_neg (by simpa using hdg),
        List.takeWhile_cons_of_neg (by simpa using heg)] at hform
      simp only [spread, Nat.sub_self, List.replicate_zero, List.append_nil] at hform
      have hends : p ++ a :: (w.toList ++ List.replicate (d - g) ')')
          = q ++ b :: (w.toList ++ List.replicate (e - g) ')') := by
        rw [link_of_le (Nat.not_lt.mp hdg), link_of_le (Nat.not_lt.mp heg), hform,
          ← List.append_assoc, ← List.append_assoc] at hfront
        simpa only [List.append_assoc, List.cons_append] using List.append_cancel_right hfront
      have hcount := replicate_inj_of_append ha hb hends
      obtain rfl : d = e := by omega
      rw [String.toList_inj.mp hform]

/-- The text of the whole and the canonical forms of the nodes determine the lines. -/
theorem eq_of_forms_eq {l m : List (Nat × String)}
    (hl : l.IsChain fun x y => y.1 ≤ x.1 + 1) (hm : m.IsChain fun x y => y.1 ≤ x.1 + 1)
    (hforms : forms l = forms m) {p q : List Char} {a b : Char} (ha : a ≠ ')') (hb : b ≠ ')')
    (htext : p ++ a :: spread 0 l = q ++ b :: spread 0 m) : l = m := by
  -- the lines are found from the last one back to the first
  induction l generalizing m p q a b with
  | nil =>
    have hlength := congrArg List.length hforms
    rw [length_forms, length_forms] at hlength
    exact (List.eq_nil_of_length_eq_zero hlength.symm).symm
  | cons x l ih =>
    obtain ⟨d, v⟩ := x
    cases m with
    | nil => nomatch hforms
    | cons y m =>
      obtain ⟨e, w⟩ := y
      obtain ⟨hform, hforms⟩ := List.cons.inj hforms
      have hlength := congrArg List.length hforms
      rw [length_forms, length_forms] at hlength
      have htail : l = m := by
        cases l with
        | nil => exact (List.eq_nil_of_length_eq_zero hlength.symm).symm
        | cons x l =>
          cases m with
          | nil => nomatch hlength
          | cons y m =>
            obtain ⟨g, x⟩ := x
            obtain ⟨k, y⟩ := y
            obtain ⟨front, hd⟩ := exists_link_eq d g
            obtain ⟨front', he⟩ := exists_link_eq e k
            rw [spread, spread, hd, he] at htext
            refine ih hl.tail hm.tail hforms (p := p ++ a :: (v.toList ++ front))
              (q := q ++ b :: (w.toList ++ front')) (a := if d < g then '(' else ' ')
              (b := if e < k then '(' else ' ') ?_ ?_ ?_
            · split <;> decide
            · split <;> decide
            · simpa only [List.append_assoc, List.cons_append, List.nil_append] using htext
      subst htail
      rw [line_eq_of_spread_eq (fun x hx => hl.rel_head? hx) (fun x hx => hm.rel_head? hx) hform
        ha hb htext]

end Outline

open Outline in
/-- The canonical forms of all nodes in preorder determine a tree, whatever its values hold. -/
theorem Tree.eq_of_canonical_subtrees_eq {t u : Tree String}
    (h : t.subtrees.map canonical = u.subtrees.map canonical) : t = u := by
  have hforms : forms (t.outline 0) = forms (u.outline 0) := by
    rw [forms_outline, forms_outline]
    simpa only [List.map_map, Function.comp_def] using congrArg (List.map String.toList) h
  have hroot : t.canonical = u.canonical := by
    obtain ⟨v, cs⟩ := t
    obtain ⟨w, ds⟩ := u
    exact (List.cons.inj h).1
  have htext : [] ++ ' ' :: spread 0 (t.outline 0) = [] ++ ' ' :: spread 0 (u.outline 0) := by
    rw [spread_outline_root, spread_outline_root, hroot]
  exact outline_injective (eq_of_forms_eq (isChain_outline t 0) (isChain_outline u 0) hforms
    (by decide) (by decide) htext)

end TreeText
