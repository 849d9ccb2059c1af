import TreeText.Proofs.Tree.Lines

/-!
# The drawn layout

What stands in front of a value in the drawn layout is made of groups of four characters. The last
group is a branch, which no other group looks like, so it can be told where the value begins, even if
the value looks like a part of the drawing. The marks of a line give the depth of its node, and the
outline gives the tree. Only the line of the root has no group, and it is the first one.

Results:
* `Tree.toList_rail_later`, `Tree.railed_eq`: the marks of a line by the place of its node.
* `rail_append_inj`: the marks of a line can be told from its value.
* `Tree.splitOn_drawn`: the lines of the layout.
* `Tree.drawn_eq_iff`: the layout determines the tree of the displayed values.
-/

namespace TreeText

universe u v

variable {α : Type u} {β : Type v}

/-! ## Rails -/

/-- The four characters for one mark: a branch for the node of the line, and a rail or a gap for a
node above it. -/
def group (branch later : Bool) : List Char :=
  match branch, later with
  | true, true => ['├', '─', '─', ' ']
  | true, false => ['└', '─', '─', ' ']
  | false, true => ['│', ' ', ' ', ' ']
  | false, false => [' ', ' ', ' ', ' ']

theorem group_append_inj {a b c d : Bool} {xs ys : List Char} (h : group a b ++ xs = group c d ++ ys) :
    (a = c ∧ b = d) ∧ xs = ys := by
  have hlength (a b : Bool) : (group a b).length = 4 := by cases a <;> cases b <;> rfl
  have hinj : ∀ a b c d, group a b = group c d → a = c ∧ b = d := by decide
  obtain ⟨hgroup, hrest⟩ := List.append_inj h ((hlength a b).trans (hlength c d).symm)
  exact ⟨hinj a b c d hgroup, hrest⟩

theorem newline_not_mem_group : ∀ branch later : Bool, '\n' ∉ group branch later := by decide

theorem toList_rail_concat (marks : List Bool) (later : Bool) :
    (Tree.rail (marks ++ [later])).toList = marks.flatMap (group false) ++ group true later := by
  induction marks with
  | nil => cases later <;> rfl
  | cons mark marks ih =>
    have hcons : Tree.rail (mark :: (marks ++ [later])) =
        (if mark then "│   " else "    ") ++ Tree.rail (marks ++ [later]) := by
      cases marks <;> rfl
    rw [List.cons_append, hcons, String.toList_append, ih, List.flatMap_cons, List.append_assoc]
    cases mark <;> rfl

/-- The groups of a line end at the branch. -/
theorem groups_append_inj {ms ns : List Bool} {a b : Bool} {xs ys : List Char}
    (h : ms.flatMap (group false) ++ (group true a ++ xs) =
      ns.flatMap (group false) ++ (group true b ++ ys)) : ms = ns ∧ a = b ∧ xs = ys := by
  induction ms generalizing ns with
  | nil =>
    cases ns with
    | nil =>
      obtain ⟨⟨-, rfl⟩, hrest⟩ := group_append_inj (a := true) (c := true) h
      exact ⟨rfl, rfl, hrest⟩
    | cons n ns =>
      rw [List.flatMap_cons, List.append_assoc] at h
      obtain ⟨⟨hbranch, -⟩, -⟩ := group_append_inj (a := true) (c := false) h
      nomatch hbranch
  | cons m ms ih =>
    cases ns with
    | nil =>
      rw [List.flatMap_cons, List.append_assoc] at h
      obtain ⟨⟨hbranch, -⟩, -⟩ := group_append_inj (a := false) (c := true) h
      nomatch hbranch
    | cons n ns =>
      rw [List.flatMap_cons, List.flatMap_cons, List.append_assoc, List.append_assoc] at h
      obtain ⟨⟨-, rfl⟩, hrest⟩ := group_append_inj h
      obtain ⟨rfl, hbehind⟩ := ih hrest
      exact ⟨rfl, hbehind⟩

/-- The marks of a line that has some can be told from its value. -/
theorem rail_append_inj {ms ns : List Bool} (hms : ms ≠ []) (hns : ns ≠ []) {xs ys : List Char}
    (h : (Tree.rail ms).toList ++ xs = (Tree.rail ns).toList ++ ys) : ms = ns ∧ xs = ys := by
  obtain ⟨ms, a, rfl⟩ := ms.eq_nil_or_concat'.resolve_left hms
  obtain ⟨ns, b, rfl⟩ := ns.eq_nil_or_concat'.resolve_left hns
  rw [toList_rail_concat, toList_rail_concat, List.append_assoc, List.append_assoc] at h
  obtain ⟨rfl, rfl, hrest⟩ := groups_append_inj h
  exact ⟨rfl, hrest⟩

theorem newline_not_mem_rail (marks : List Bool) : '\n' ∉ (Tree.rail marks).toList := by
  rcases marks.eq_nil_or_concat' with rfl | ⟨marks, later, rfl⟩
  · exact List.not_mem_nil
  · rw [toList_rail_concat]
    simp [newline_not_mem_group]

namespace Tree

/-! ## Marks by places -/

/-- For each node on the way down a path, the root left out, whether it has later siblings. -/
def later (t : Tree α) : List Nat → List Bool
  | [] => []
  | i :: path =>
    match t.childAt i with
    | .error _ => []
    | .ok c => decide (i + 1 < t.arity) :: c.later path

theorem later_cons {t c : Tree α} {i : Nat} (h : t.childAt i = .ok c) (path : List Nat) :
    t.later (i :: path) = decide (i + 1 < t.arity) :: c.later path := by
  rw [later, h]

/-- The last mark is that of the node at the path, among the children of its parent. -/
theorem later_concat {t s c : Tree α} {path : List Nat} {i : Nat} (hs : t.subtreeAt path = .ok s)
    (hc : s.childAt i = .ok c) :
    t.later (path ++ [i]) = t.later path ++ [decide (i + 1 < s.arity)] := by
  induction path generalizing t with
  | nil =>
    cases hs
    rw [List.nil_append, later_cons hc, later, later]
    rfl
  | cons j path ih =>
    obtain ⟨d, hd, hbelow⟩ := subtreeAt_cons_eq_ok_iff.mp hs
    rw [List.cons_append, later_cons hd, later_cons hd, ih hbelow, List.cons_append]

/-- What stands in front of a value below the root: a rail or a gap for each node above it, by whether
this one has later siblings, and a branch, by whether the node itself has some. -/
theorem toList_rail_later {t s c : Tree α} {path : List Nat} {i : Nat}
    (hs : t.subtreeAt path = .ok s) (hc : s.childAt i = .ok c) :
    (rail (t.later (path ++ [i]))).toList =
      (t.later path).flatMap (group false) ++ group true (decide (i + 1 < s.arity)) := by
  rw [later_concat hs hc, toList_rail_concat]

theorem map_snd_railed (marks : List Bool) (t : Tree α) :
    (t.railed marks).map Prod.snd = t.values := by
  induction t generalizing marks with
  | node v cs ih =>
    have hall : (railedAll marks cs).map Prod.snd = cs.flatMap values := by
      induction cs with
      | nil => rfl
      | cons c cs ihcs =>
        rw [railedAll, List.map_append, ih c (List.mem_cons_self ..),
          ihcs fun d hd => ih d (List.mem_cons_of_mem c hd), List.flatMap_cons]
    rw [railed_node, List.map_cons, hall, values_node]

theorem map_fst_railedAll {t : Tree α} {marks : List Bool} {cs : List (Tree α)} {i : Nat}
    (h : t.children.drop i = cs)
    (hcs : ∀ c ∈ cs, ∀ marks : List Bool,
      (c.railed marks).map Prod.fst = c.paths.map (marks ++ c.later ·)) :
    (railedAll marks cs).map Prod.fst = (pathsFrom i cs).map (marks ++ t.later ·) := by
  induction cs generalizing i with
  | nil => rfl
  | cons c cs ih =>
    obtain ⟨hc, htail, harity⟩ := childAt_of_drop_eq_cons h
    have hlater : (!cs.isEmpty) = decide (i + 1 < t.arity) := by
      cases cs <;> simp [harity]
    have hbelow : ((marks ++ t.later ·) ∘ fun p => i :: p) =
        (marks ++ [!cs.isEmpty] ++ c.later ·) := by
      funext p
      rw [Function.comp_apply, later_cons hc, hlater, List.append_assoc]
      rfl
    rw [railedAll, List.map_append, hcs c (List.mem_cons_self ..), pathsFrom, List.map_append,
      List.map_map, hbelow, ih htail fun d hd => hcs d (List.mem_cons_of_mem c hd)]

theorem map_fst_railed (marks : List Bool) (t : Tree α) :
    (t.railed marks).map Prod.fst = t.paths.map (marks ++ t.later ·) := by
  induction t generalizing marks with
  | node v cs ih =>
    have hchildren : (node v cs).children.drop 0 = cs := rfl
    rw [railed_node, List.map_cons, map_fst_railedAll hchildren fun c hc => ih c hc, paths,
      List.map_cons, later, List.append_nil]

/-- The marks of a line are those of the place of its node. -/
theorem railed_eq (t : Tree α) :
    t.railed [] = (t.located []).values.map fun x => (t.later x.1, x.2) :=
  eq_map_values_located (map_fst_railed [] t) (map_snd_railed [] t)

theorem railedAll_map {f : α → β} {marks : List Bool} {cs : List (Tree α)}
    (hcs : ∀ c ∈ cs, ∀ marks : List Bool,
      (c.map f).railed marks = (c.railed marks).map fun x => (x.1, f x.2)) :
    railedAll marks (cs.map (map f)) = (railedAll marks cs).map fun x => (x.1, f x.2) := by
  induction cs with
  | nil => rfl
  | cons c cs ih =>
    rw [List.map_cons, railedAll, railedAll, hcs c (List.mem_cons_self ..), List.isEmpty_map,
      ih fun d hd => hcs d (List.mem_cons_of_mem c hd), List.map_append]

theorem railed_map (f : α → β) (marks : List Bool) (t : Tree α) :
    (t.map f).railed marks = (t.railed marks).map fun x => (x.1, f x.2) := by
  induction t generalizing marks with
  | node v cs ih => rw [map_node, railed_node, railed_node, railedAll_map ih, List.map_cons]

theorem length_later {t s : Tree α} {path : List Nat} (hs : t.subtreeAt path = .ok s) :
    (t.later path).length = path.length := by
  induction path generalizing t with
  | nil => rfl
  | cons i path ih =>
    obtain ⟨c, hc, hbelow⟩ := subtreeAt_cons_eq_ok_iff.mp hs
    rw [later_cons hc, List.length_cons, ih hbelow, List.length_cons]

/-- The depths of the outline are the numbers of marks. -/
theorem outline_eq_map_railed (t : Tree α) :
    t.outline 0 = (t.railed []).map fun x => (x.1.length, x.2) := by
  rw [outline_eq, railed_eq, List.map_map]
  refine List.map_congr_left fun x hx => ?_
  have hpath : x.1 ∈ t.paths := by
    have hmem := List.mem_map_of_mem (f := Prod.fst) hx
    rw [map_fst_values_located] at hmem
    simpa using hmem
  obtain ⟨s, hs⟩ := mem_paths_iff.mp hpath
  rw [Function.comp_apply, length_later hs]

/-- Only the line of the root has no marks. -/
theorem ne_nil_of_mem_railedAll {cs : List (Tree α)} {x : List Bool × α}
    (hx : x ∈ railedAll [] cs) : x.1 ≠ [] := by
  induction cs with
  | nil => nomatch hx
  | cons c cs ih =>
    rcases List.mem_append.mp hx with hx | hx
    · have hmarks := List.mem_map_of_mem (f := Prod.fst) hx
      rw [map_fst_railed] at hmarks
      obtain ⟨path, -, heq⟩ := List.mem_map.mp hmarks
      rw [← heq]
      simp
    · exact ih hx

/-! ## Lines -/

/-- A line of the drawn layout without its line break. -/
def drawnRow [ToString α] (line : List Bool × α) : List Char :=
  (rail line.1).toList ++ (toString line.2).toList

theorem toList_drawn [ToString α] (t : Tree α) :
    t.drawn.toList = (t.railed []).flatMap fun x => drawnRow x ++ ['\n'] := by
  have hline (x : List Bool × α) : (drawnLine x).toList = drawnRow x ++ ['\n'] := by
    simp [drawnLine, drawnRow]
  rw [drawn, String.toList_join, List.flatMap_map]
  exact List.flatMap_congr fun x _ => hline x

theorem drawn_map_toString [ToString α] (t : Tree α) : (t.map toString).drawn = t.drawn := by
  rw [← String.toList_inj, toList_drawn, toList_drawn, railed_map, List.flatMap_map]
  rfl

theorem splitOn_drawn [ToString α] {t : Tree α} (h : t.IsSingleLined) :
    t.drawn.toList.splitOn '\n' = (t.railed []).map drawnRow ++ [[]] := by
  rw [toList_drawn]
  refine splitOn_flatMap_concat fun x hx => ?_
  have hvalue : x.2 ∈ t.values := map_snd_railed [] t ▸ List.mem_map_of_mem hx
  simpa [drawnRow, newline_not_mem_rail] using h x.2 hvalue

/-- The lines by the walk: each visit is a line, behind the rails for its place. -/
theorem splitOn_drawn_walk [ToString α] {t : Tree α} (h : t.IsSingleLined) :
    t.drawn.toList.splitOn '\n' =
      (Walk.start (t.located [])).values.map (fun x =>
        (rail (t.later x.1)).toList ++ (toString x.2).toList) ++ [[]] := by
  rw [splitOn_drawn h, railed_eq, List.map_map, Walk.values_start]
  rfl

/-! ## Trees by their lines -/

theorem drawnRow_inj {x y : List Bool × String} (hx : x.1 ≠ []) (hy : y.1 ≠ [])
    (h : drawnRow x = drawnRow y) : x = y := by
  obtain ⟨hmarks, hvalue⟩ := rail_append_inj hx hy h
  exact Prod.ext hmarks (String.toList_inj.mp hvalue)

/-- The layout of a tree of texts determines it. -/
theorem drawn_inj {t u : Tree String} (ht : t.IsSingleLined) (hu : u.IsSingleLined)
    (h : t.drawn = u.drawn) : t = u := by
  have hrows := congrArg (fun text : String => text.toList.splitOn '\n') h
  rw [splitOn_drawn ht, splitOn_drawn hu] at hrows
  replace hrows := List.append_cancel_right hrows
  have hrailed : t.railed [] = u.railed [] := by
    obtain ⟨v, cs⟩ := t
    obtain ⟨w, ds⟩ := u
    rw [railed_node, railed_node] at hrows ⊢
    -- the first line has no marks, and all others have some
    obtain ⟨hroot, hbelow⟩ := List.cons.inj hrows
    have hvalue : v = w := String.toList_inj.mp hroot
    rw [hvalue, eq_of_map_eq (fun _ _ => drawnRow_inj) (fun _ => ne_nil_of_mem_railedAll)
      (fun _ => ne_nil_of_mem_railedAll) hbelow]
  apply outline_injective (d := 0)
  rw [outline_eq_map_railed, outline_eq_map_railed, hrailed]

theorem drawn_eq_drawn_iff [ToString α] [ToString β] {t : Tree α} {u : Tree β}
    (ht : t.IsSingleLined) (hu : u.IsSingleLined) :
    t.drawn = u.drawn ↔ t.map toString = u.map toString := by
  rw [← drawn_map_toString t, ← drawn_map_toString u]
  constructor
  · exact drawn_inj ht.map_toString hu.map_toString
  · intro h
    rw [h]

/-- **The drawn layout loses nothing.** Two trees whose values are shown on one line have the same
layout if and only if they have the same shape and show the same values; the values may be empty or
look like a part of a drawing. Each visit of the walk is one line: the value behind a rail or a gap
for each node between the root and its own, by whether that node has later siblings, and a branch.
Two texts that hold trees are therefore shown alike if and only if the trees are equal. -/
theorem drawn_eq_iff :
    (∀ (α : Type u) (β : Type v) [ToString α] [ToString β] (t : Tree α) (u : Tree β),
      t.IsSingleLined → u.IsSingleLined →
        (t.drawn = u.drawn ↔ t.map toString = u.map toString)) ∧
    (∀ (α : Type u) [ToString α] (t : Tree α), t.IsSingleLined →
      t.drawn.toList.splitOn '\n' =
        (Walk.start (t.located [])).values.map (fun x =>
          (rail (t.later x.1)).toList ++ (toString x.2).toList) ++ [[]]) ∧
    (∀ (α : Type u) (t s c : Tree α) (path : List Nat) (i : Nat), t.subtreeAt path = .ok s →
      s.childAt i = .ok c → (rail (t.later (path ++ [i]))).toList =
        (t.later path).flatMap (group false) ++ group true (decide (i + 1 < s.arity))) ∧
    ∀ (left right : String) (l r : Tree String) (width width' : Nat),
      parse left = .ok l → parse right = .ok r →
        (displayText left .drawn width = displayText right .drawn width' ↔ l = r) := by
  refine ⟨fun α β _ _ t u => drawn_eq_drawn_iff, fun α _ t => splitOn_drawn_walk,
    fun α t s c path i => toList_rail_later, ?_⟩
  intro left right l r width width' hl hr
  have htrees := drawn_eq_drawn_iff (isClean_of_parse hl).isSingleLined
    (isClean_of_parse hr).isSingleLined
  rw [map_toString, map_toString] at htrees
  exact (displayText_eq_iff hl hr .drawn width width').trans htrees

/-- Values that look like a branch below their node, and a text in two spellings. -/
theorem drawn_eq_iff_lookalike :
    (node "a" [node "b" [leaf "c"]]).drawn ≠ (node "a" [leaf "b", leaf "└── c"]).drawn ∧
      (node "a" [node "" [leaf "├── b"], leaf " c"]).drawn.toList.splitOn '\n' =
        ["a".toList, "├── ".toList, "│   └── ├── b".toList, "└──  c".toList, []] ∧
      displayText "a (b (c) d)" .drawn 1 = displayText " a(b(c)d)" .drawn 2 ∧
      displayText "a (b (c) d)" .drawn 1 ≠ displayText "a (b (c d))" .drawn 1 := by
  obtain ⟨htrees, hlines, -, htexts⟩ := drawn_eq_iff.{0, 0}
  have hl : parse "a (b (c) d)" = .ok (node "a" [node "b" [leaf "c"], leaf "d"]) := rfl
  have hl' : parse " a(b(c)d)" = .ok (node "a" [node "b" [leaf "c"], leaf "d"]) := rfl
  have hr : parse "a (b (c d))" = .ok (node "a" [node "b" [leaf "c", leaf "d"]]) := rfl
  refine ⟨fun h => ?_, ?_, ?_, fun h => ?_⟩
  · exact absurd ((htrees String String _ _ (by decide) (by decide)).mp h) (by decide)
  · rw [hlines String _ (by decide), Walk.values_start]
    decide
  · exact (htexts _ _ _ _ 1 2 hl hl').mpr rfl
  · exact absurd ((htexts _ _ _ _ 1 1 hl hr).mp h) (by decide)

end Tree

end TreeText
