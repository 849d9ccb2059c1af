import TreeText.Proofs.Tree.Lines

/-!
# The indented layout

A line of the indented layout starts with a number of spaces that tells the depth of its node, if
there is at least one space for each level and no value starts with a space. The lines then give back
the outline of the tree, and this one the tree.

Results:
* `Tree.splitOn_indented`: the lines of the layout.
* `Tree.indentedRow_inj`: the depth and the value by the line.
* `Tree.indented_eq_iff`: the layout determines the tree of the displayed values.
-/

namespace TreeText

universe u v

variable {α : Type u} {β : Type v}

namespace Tree

/-! ## Lines -/

/-- A line of the indented layout without its line break. -/
def indentedRow [ToString α] (width : Nat) (line : Nat × α) : List Char :=
  List.replicate (line.1 * width) ' ' ++ (toString line.2).toList

theorem toList_indented [ToString α] (width : Nat) (t : Tree α) :
    (t.indented width).toList = (t.outline 0).flatMap fun x => indentedRow width x ++ ['\n'] := by
  have hline (x : Nat × α) : (indentedLine width x).toList = indentedRow width x ++ ['\n'] := by
    simp [indentedLine, indentedRow]
  rw [indented, String.toList_join, List.flatMap_map]
  exact List.flatMap_congr fun x _ => hline x

theorem indented_map_toString [ToString α] (width : Nat) (t : Tree α) :
    (t.map toString).indented width = t.indented width := by
  rw [← String.toList_inj, toList_indented, toList_indented, outline_map, List.flatMap_map]
  rfl

theorem splitOn_indented [ToString α] {t : Tree α} (h : t.IsSingleLined) (width : Nat) :
    (t.indented width).toList.splitOn '\n' = (t.outline 0).map (indentedRow width) ++ [[]] := by
  rw [toList_indented]
  refine splitOn_flatMap_concat fun x hx => ?_
  simpa [indentedRow] using h x.2 (mem_values_of_outline hx)

/-- The lines by the walk: each visit is a line, indented by the length of the path. -/
theorem splitOn_indented_walk [ToString α] {t : Tree α} (h : t.IsSingleLined) (width : Nat) :
    (t.indented width).toList.splitOn '\n' =
      (Walk.start (t.located [])).values.map (fun x =>
        List.replicate (x.1.length * width) ' ' ++ (toString x.2).toList) ++ [[]] := by
  rw [splitOn_indented h, outline_eq, List.map_map, Walk.values_start]
  rfl

/-! ## Trees by their lines -/

/-- Whether no value is shown with a space in front. -/
def IsUnindented [ToString α] (t : Tree α) : Prop :=
  ∀ v ∈ t.values, (toString v).toList.head? ≠ some ' '

instance [ToString α] (t : Tree α) : Decidable t.IsUnindented :=
  inferInstanceAs (Decidable (∀ v ∈ t.values, (toString v).toList.head? ≠ some ' '))

theorem IsClean.isUnindented [ToString α] {t : Tree α} (h : t.IsClean) : t.IsUnindented :=
  fun _ hv hhead => h.not_mem_value (c := ' ') rfl hv (List.mem_of_mem_head? hhead)

theorem IsUnindented.map_toString [ToString α] {t : Tree α} (h : t.IsUnindented) :
    (t.map toString).IsUnindented :=
  forall_values_map_toString (p := fun text => text.toList.head? ≠ some ' ') |>.mpr h

theorem indentedRow_inj {width : Nat} (hwidth : 0 < width) {x y : Nat × String}
    (hx : x.2.toList.head? ≠ some ' ') (hy : y.2.toList.head? ≠ some ' ')
    (h : indentedRow width x = indentedRow width y) : x = y := by
  obtain ⟨hspaces, hvalue⟩ := replicate_append_inj hx hy h
  exact Prod.ext (Nat.eq_of_mul_eq_mul_right hwidth hspaces) (String.toList_inj.mp hvalue)

/-- The layout of a tree of texts determines it. -/
theorem indented_inj {width : Nat} (hwidth : 0 < width) {t u : Tree String}
    (ht : t.IsSingleLined) (hu : u.IsSingleLined) (ht' : t.IsUnindented) (hu' : u.IsUnindented)
    (h : t.indented width = u.indented width) : t = u := by
  have hrows := congrArg (fun text : String => text.toList.splitOn '\n') h
  rw [splitOn_indented ht, splitOn_indented hu] at hrows
  have hspaces {s : Tree String} (hs : s.IsUnindented) :
      ∀ x ∈ s.outline 0, x.2.toList.head? ≠ some ' ' := fun x hx => hs x.2 (mem_values_of_outline hx)
  exact outline_injective (eq_of_map_eq (fun _ _ hx hy => indentedRow_inj hwidth hx hy)
    (hspaces ht') (hspaces hu') (List.append_cancel_right hrows))

theorem indented_eq_indented_iff [ToString α] [ToString β] {width : Nat} (hwidth : 0 < width)
    {t : Tree α} {u : Tree β} (ht : t.IsSingleLined) (hu : u.IsSingleLined) (ht' : t.IsUnindented)
    (hu' : u.IsUnindented) :
    t.indented width = u.indented width ↔ t.map toString = u.map toString := by
  rw [← indented_map_toString width t, ← indented_map_toString width u]
  constructor
  · exact indented_inj hwidth ht.map_toString hu.map_toString ht'.map_toString hu'.map_toString
  · intro h
    rw [h]

/-- **The indented layout loses nothing.** If there is at least one space for each level, two trees
whose values are shown on one line and without a space in front have the same layout if and only if
they have the same shape and show the same values. Each visit of the walk is one line: the value
behind the spaces for each step of the path. Two texts that hold trees are therefore shown alike if
and only if the trees are equal. -/
theorem indented_eq_iff :
    (∀ (α : Type u) (β : Type v) [ToString α] [ToString β] (width : Nat) (t : Tree α) (u : Tree β),
      0 < width → t.IsSingleLined → u.IsSingleLined → t.IsUnindented → u.IsUnindented →
        (t.indented width = u.indented width ↔ t.map toString = u.map toString)) ∧
    (∀ (α : Type u) [ToString α] (width : Nat) (t : Tree α), t.IsSingleLined →
      (t.indented width).toList.splitOn '\n' =
        (Walk.start (t.located [])).values.map (fun x =>
          List.replicate (x.1.length * width) ' ' ++ (toString x.2).toList) ++ [[]]) ∧
    ∀ (width : Nat) (left right : String) (l r : Tree String), 0 < width →
      parse left = .ok l → parse right = .ok r →
        (displayText left .indented width = displayText right .indented width ↔ l = r) := by
  refine ⟨fun α β _ _ width t u hwidth => indented_eq_indented_iff hwidth,
    fun α _ width t h => splitOn_indented_walk h width, ?_⟩
  intro width left right l r hwidth hl hr
  have hcl := isClean_of_parse hl
  have hcr := isClean_of_parse hr
  have htrees := indented_eq_indented_iff hwidth hcl.isSingleLined hcr.isSingleLined
    hcl.isUnindented hcr.isUnindented
  rw [map_toString, map_toString] at htrees
  exact (displayText_eq_iff hl hr .indented width width).trans htrees

/-- An empty value and one with a space inside, in two trees that differ in one level, and two texts
of one tree. -/
theorem indented_eq_iff_levels :
    (node "a" [node "" [leaf "b c"], leaf "d"]).indented 1 ≠
        (node "a" [node "" [leaf "b c", leaf "d"]]).indented 1 ∧
      ((node "a" [node "" [leaf "b c"]]).indented 2).toList.splitOn '\n' =
        ["a".toList, "  ".toList, "    b c".toList, []] ∧
      displayText "a (b (c) d)" .indented 2 = displayText " a(b(c)d)" .indented 2 ∧
      displayText "a (b (c) d)" .indented 2 ≠ displayText "a (b (c d))" .indented 2 := by
  obtain ⟨htrees, hlines, htexts⟩ := indented_eq_iff.{0, 0}
  have hl : parse "a (b (c) d)" = .ok (node "a" [node "b" [leaf "c"], leaf "d"]) := rfl
  have hl' : parse " a(b(c)d)" = .ok (node "a" [node "b" [leaf "c"], leaf "d"]) := rfl
  have hr : parse "a (b (c d))" = .ok (node "a" [node "b" [leaf "c", leaf "d"]]) := rfl
  refine ⟨fun h => ?_, ?_, ?_, fun h => ?_⟩
  · exact absurd ((htrees String String 1 _ _ (by decide) (by decide) (by decide) (by decide)
      (by decide)).mp h) (by decide)
  · rw [hlines String 2 _ (by decide), Walk.values_start]
    decide
  · exact (htexts 2 _ _ _ _ (by decide) hl hl').mpr rfl
  · exact absurd ((htexts 2 _ _ _ _ (by decide) hl hr).mp h) (by decide)

end Tree

end TreeText
