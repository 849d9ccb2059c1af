import TreeText.Proofs.Tree.Locality
import TreeText.Proofs.Tree.Visits

/-!
# Insertions by the walk

The walk over a tree comes to the nodes below a node one after the other, and replacing the node
replaces this block of values and nothing else. An insertion therefore puts the values of the new
child, as one block, into the values that the walk came to before. The place is in front of the child
that had the index, or behind the last node below the parent. All other ways of adding children are
insertions behind the last child, one after the other.

Results:
* `Tree.exists_block`: the nodes below a node are a block of the walk, and a replacement is local to it.
* `Tree.replaceAt_self`, `Tree.replaceAt_replaceAt`: to put back what was there, and to replace twice.
* `Tree.exists_changeAt_insertChild`: an insertion at a path puts in a block.
* `Tree.appendEach_eq`: to append several children is to append them one by one.
* `Tree.walk_insertChild`: what insertions do to the walk over the whole tree.
-/

namespace TreeText

universe u

variable {α : Type u}

namespace Tree

theorem length_values (t : Tree α) : t.values.length = t.size := by
  rw [values, List.length_map, length_subtrees]

/-! ## A child among its siblings -/

theorem pathsFrom_append (i : Nat) (as bs : List (Tree α)) :
    pathsFrom i (as ++ bs) = pathsFrom i as ++ pathsFrom (i + as.length) bs := by
  induction as generalizing i with
  | nil => rfl
  | cons a as ih =>
    rw [List.cons_append, pathsFrom, pathsFrom, ih, List.append_assoc, List.length_cons,
      Nat.add_assoc, Nat.add_comm 1]

theorem length_pathsFrom (i : Nat) (cs : List (Tree α)) :
    (pathsFrom i cs).length = (cs.flatMap values).length := by
  induction cs generalizing i with
  | nil => rfl
  | cons c cs ih =>
    rw [pathsFrom, List.flatMap_cons, List.length_append, List.length_append, List.length_map, ih,
      length_paths, length_values]

theorem values_node_append_cons (v : α) (as bs : List (Tree α)) (c : Tree α) :
    (node v (as ++ c :: bs)).values = (v :: as.flatMap values) ++ c.values ++ bs.flatMap values := by
  rw [values_node, List.flatMap_append, List.flatMap_cons, List.append_assoc]
  rfl

theorem paths_node_append (v : α) (as bs : List (Tree α)) :
    (node v (as ++ bs)).paths = ([] :: pathsFrom 0 as) ++ pathsFrom as.length bs := by
  rw [paths, pathsFrom_append, Nat.zero_add]
  rfl

/-- The siblings in front of a child and behind it. -/
theorem exists_append_cons_of_childAt {t c : Tree α} {i : Nat} (h : t.childAt i = .ok c) :
    ∃ as bs, t.children = as ++ c :: bs ∧ as.length = i := by
  obtain ⟨hi, rfl⟩ := List.getElem?_eq_some_iff.mp (childAt_eq_ok_iff.mp h)
  exact ⟨t.children.take i, t.children.drop (i + 1),
    by rw [List.getElem_cons_drop, List.take_append_drop], List.length_take_of_le (Nat.le_of_lt hi)⟩

/-! ## The nodes below a node -/

/-- The walk comes to the nodes below a node one after the other. To replace the node is to replace
their values. -/
theorem exists_block {t s : Tree α} {path : List Nat} (hs : t.subtreeAt path = .ok s) :
    ∃ (before behind : List (List Nat)) (pre post : List α),
      t.paths = before ++ s.paths.map (path ++ ·) ++ behind ∧ pre.length = before.length ∧
      t.values = pre ++ s.values ++ post ∧
      ∀ s' t', t.replaceAt path s' = .ok t' → t'.values = pre ++ s'.values ++ post := by
  induction path generalizing t with
  | nil =>
    cases hs
    refine ⟨[], [], [], [], ?_, rfl, ?_, ?_⟩
    · simp
    · simp
    · intro s' t' h
      cases h
      simp
  | cons i path ih =>
    obtain ⟨c, hc, hbelow⟩ := subtreeAt_cons_eq_ok_iff.mp hs
    obtain ⟨before, behind, pre, post, hpaths, hlength, hvalues, hreplace⟩ := ih hbelow
    obtain ⟨as, bs, hchildren, rfl⟩ := exists_append_cons_of_childAt hc
    obtain ⟨v, cs⟩ := t
    obtain rfl : cs = as ++ c :: bs := hchildren
    refine ⟨([] :: pathsFrom 0 as) ++ before.map (as.length :: ·),
      behind.map (as.length :: ·) ++ pathsFrom (as.length + 1) bs,
      (v :: as.flatMap values) ++ pre, post ++ bs.flatMap values, ?_, ?_, ?_, ?_⟩
    · rw [paths_node_append, pathsFrom, hpaths]
      simp
    · simp [length_pathsFrom, hlength]
    · rw [values_node_append_cons, hvalues]
      simp
    · intro s' t' h
      obtain ⟨d, d', hd, hd', rfl⟩ := modifyAt_cons_eq_ok_iff.mp h
      obtain rfl : c = d := Except.ok.inj (hc.symm.trans hd)
      rw [value_node, children_node, List.set_append_right _ _ (Nat.le_refl _), Nat.sub_self,
        List.set_cons_zero, values_node_append_cons, hreplace s' d' hd']
      simp

/-- Behind the block there is no other node below the node. -/
theorem not_prefix_of_mem_behind {t s : Tree α} {path q : List Nat} {before behind : List (List Nat)}
    (hs : t.subtreeAt path = .ok s)
    (hpaths : t.paths = before ++ s.paths.map (path ++ ·) ++ behind) (hq : q ∈ behind) :
    ¬ path <+: q := by
  rintro ⟨rest, rfl⟩
  have hnodup := t.nodup_paths
  have hmem : path ++ rest ∈ t.paths := by
    rw [hpaths]
    exact List.mem_append_right _ hq
  obtain ⟨r, hr⟩ := mem_paths_iff.mp hmem
  rw [subtreeAt_append_of_ok hs] at hr
  have hblock : path ++ rest ∈ s.paths.map (path ++ ·) :=
    List.mem_map_of_mem (mem_paths_iff.mpr ⟨r, hr⟩)
  rw [hpaths, List.nodup_append] at hnodup
  exact hnodup.2.2 _ (List.mem_append_right before hblock) _ hq rfl

/-! ## Changes as replacements -/

section

variable {f : Tree α → Except Error (Tree α)} {t s s' t' : Tree α} {path : List Nat}

/-- What a change at a path does is told by what it makes of the node there. -/
theorem modifyAt_eq_replaceAt (hs : t.subtreeAt path = .ok s) (hf : f s = .ok s') :
    t.modifyAt f path = t.replaceAt path s' := by
  induction path generalizing t with
  | nil =>
    cases hs
    exact hf
  | cons i path ih =>
    obtain ⟨c, hc, hbelow⟩ := subtreeAt_cons_eq_ok_iff.mp hs
    have hchild := ih hbelow
    rw [replaceAt] at hchild ⊢
    rw [modifyAt, modifyAt, hc]
    simp only [hchild]

theorem changeAt_of_apply {m : Change α} (hs : t.subtreeAt path = .ok s) (hm : m.apply s = .ok s') :
    t.changeAt m path = Change.leave t (t.replaceAt path s') := by
  rw [changeAt_eq, modifyAt_eq_replaceAt hs hm]

theorem exists_replaceAt_eq_ok (hs : t.subtreeAt path = .ok s) (s' : Tree α) :
    ∃ t', t.replaceAt path s' = .ok t' :=
  exists_modifyAt_eq_ok hs rfl

theorem subtreeAt_replaceAt (hs : t.subtreeAt path = .ok s) (h : t.replaceAt path s' = .ok t') :
    t'.subtreeAt path = .ok s' := by
  rw [subtreeAt_modifyAt h, hs]
  rfl

theorem replaceAt_self (hs : t.subtreeAt path = .ok s) : t.replaceAt path s = .ok t := by
  induction path generalizing t with
  | nil =>
    cases hs
    rfl
  | cons i path ih =>
    obtain ⟨c, hc, hbelow⟩ := subtreeAt_cons_eq_ok_iff.mp hs
    exact modifyAt_cons_eq_ok_iff.mpr ⟨c, c, hc, ih hbelow, node_set_of_childAt hc⟩

/-- Of two replacements at one path the last one counts. -/
theorem replaceAt_replaceAt (h : t.replaceAt path s' = .ok t') (s'' : Tree α) :
    t'.replaceAt path s'' = t.replaceAt path s'' := by
  induction path generalizing t t' with
  | nil => rfl
  | cons i path ih =>
    obtain ⟨c, c', hc, hc', rfl⟩ := modifyAt_cons_eq_ok_iff.mp h
    have hchild := ih hc'
    rw [replaceAt, replaceAt] at hchild ⊢
    rw [modifyAt, modifyAt, childAt_set hc c', hc]
    simp only [hchild, children_node, List.set_set, value_node]

theorem size_replaceAt (hs : t.subtreeAt path = .ok s) (h : t.replaceAt path s' = .ok t') :
    t'.size + s.size = t.size + s'.size := by
  obtain ⟨-, -, pre, post, -, -, hvalues, hreplace⟩ := exists_block hs
  have hlength := congrArg List.length hvalues
  have hlength' := congrArg List.length (hreplace s' t' h)
  simp only [length_values, List.length_append] at hlength hlength'
  omega

end

/-! ## Insertions -/

/-- How the tree `t'` is related to the tree `t` when the child `c` has been inserted at the index `i`
of the node at `path`, where `arity` is the number of children there. -/
structure Spliced (path : List Nat) (i arity : Nat) (c t t' : Tree α)
    (before behind : List (List Nat)) : Prop where
  /-- The walk over `t` is cut in two. -/
  paths : t.paths = before ++ behind
  /-- What is behind the cut starts with the child that had the index. -/
  inside : i < arity → behind.head? = some (path ++ [i])
  /-- If there was no such child, the cut is behind the last node below the parent. -/
  atEnd : i = arity → (∃ q, before.getLast? = some q ∧ path <+: q) ∧ ∀ q ∈ behind, ¬ path <+: q
  /-- The walk over `t'` comes to the values before the cut, to those of `c`, and to those behind the
  cut. -/
  values : (Walk.start t').values = (Walk.start t).values.take before.length ++
    (Walk.start c).values ++ (Walk.start t).values.drop before.length

theorem exists_spliced {t s t' c : Tree α} {path : List Nat} {i : Nat}
    (hs : t.subtreeAt path = .ok s) (hi : i ≤ s.arity)
    (h : t.replaceAt path (node s.value (s.children.take i ++ c :: s.children.drop i)) = .ok t') :
    ∃ before behind, Spliced path i s.arity c t t' before behind := by
  obtain ⟨before, behind, pre, post, hpaths, hlength, hvalues, hreplace⟩ := exists_block hs
  obtain ⟨v, cs⟩ := s
  have hlength' : i ≤ cs.length := hi
  have hsplit : (node v cs).paths = ([] :: pathsFrom 0 (cs.take i)) ++ pathsFrom i (cs.drop i) := by
    have happend := paths_node_append v (cs.take i) (cs.drop i)
    rwa [List.take_append_drop, List.length_take_of_le hlength'] at happend
  have hold : (node v cs).values
      = (v :: (cs.take i).flatMap Tree.values) ++ (cs.drop i).flatMap Tree.values := by
    rw [values_node, List.cons_append, ← List.flatMap_append, List.take_append_drop]
  have hcut : (before ++ ([] :: pathsFrom 0 (cs.take i)).map (path ++ ·)).length
      = (pre ++ (v :: (cs.take i).flatMap Tree.values)).length := by
    simp [length_pathsFrom, hlength]
  refine ⟨before ++ ([] :: pathsFrom 0 (cs.take i)).map (path ++ ·),
    (pathsFrom i (cs.drop i)).map (path ++ ·) ++ behind, ?_, ?_, ?_, ?_⟩
  · rw [hpaths, hsplit]
    simp
  · intro hlt
    have hlt' : i < cs.length := hlt
    rw [List.drop_eq_getElem_cons hlt', pathsFrom]
    obtain ⟨w, ds⟩ := cs[i]
    simp [Tree.paths]
  · rintro rfl
    refine ⟨?_, fun q hq => ?_⟩
    · have hne : ([] :: pathsFrom 0 (cs.take (node v cs).arity)).map (path ++ ·) ≠ [] := by simp
      obtain ⟨rest, -, hrest⟩ := List.mem_map.mp (List.getLast_mem hne)
      exact ⟨_, by rw [List.getLast?_append, List.getLast?_eq_some_getLast hne]; rfl,
        hrest ▸ List.prefix_append path rest⟩
    · have hnone : cs.drop (node v cs).arity = [] := List.drop_length
      rw [hnone] at hq
      exact not_prefix_of_mem_behind hs hpaths hq
  · rw [Walk.values_start, Walk.values_start, Walk.values_start, hreplace _ _ h, hvalues, hold,
      value_node, children_node, values_node_append_cons, hcut]
    have hassoc : pre ++ (v :: (cs.take i).flatMap Tree.values ++ (cs.drop i).flatMap Tree.values)
        ++ post = (pre ++ (v :: (cs.take i).flatMap Tree.values)) ++
          ((cs.drop i).flatMap Tree.values ++ post) := by
      simp
    rw [hassoc, List.take_left, List.drop_left]
    simp

theorem exists_changeAt_insertChild {t s : Tree α} {path : List Nat} (hs : t.subtreeAt path = .ok s)
    {i : Nat} (hi : i ≤ s.arity) (c : Tree α) :
    ∃ t' before behind, t.changeAt (.insertChild i c) path = ⟨.ok (), t'⟩ ∧
      Spliced path i s.arity c t t' before behind ∧ t'.size = t.size + c.size := by
  have happly : (Change.insertChild i c).apply s = _ := insertChild_of_le hi c
  obtain ⟨t', ht'⟩ := exists_replaceAt_eq_ok hs
    (node s.value (s.children.take i ++ c :: s.children.drop i))
  obtain ⟨before, behind, hspliced⟩ := exists_spliced hs hi ht'
  refine ⟨t', before, behind, ?_, hspliced, ?_⟩
  · rw [changeAt_of_apply hs happly, ht']
    rfl
  · have hlength := congrArg List.length hspliced.values
    rw [Walk.values_start, Walk.values_start, Walk.values_start, List.length_append, List.length_append,
      Nat.add_right_comm, ← List.length_append, List.take_append_drop] at hlength
    rwa [length_values, length_values, length_values] at hlength

/-! ## Children behind all others -/

theorem changeAt_appendChild_eq {t s : Tree α} {path : List Nat} (hs : t.subtreeAt path = .ok s)
    (c : Tree α) : t.changeAt (.appendChild c) path = t.changeAt (.insertChild s.arity c) path := by
  have happend : (Change.appendChild c).apply s = .ok (s.appendChild c) := rfl
  have hinsert : (Change.insertChild s.arity c).apply s = .ok (s.appendChild c) :=
    appendChild_eq_insertChild s c
  rw [changeAt_of_apply hs happend, changeAt_of_apply hs hinsert]

/-- Appends children to the node at a path, one by one, as long as this succeeds. -/
def appendEach (path : List Nat) (t : Tree α) : List (Tree α) → Changed α
  | [] => ⟨.ok (), t⟩
  | c :: cs =>
    match t.changeAt (.appendChild c) path with
    | ⟨.ok (), t'⟩ => t'.appendEach path cs
    | ⟨.error e, t'⟩ => ⟨.error e, t'⟩

theorem appendEach_eq {t s : Tree α} {path : List Nat} (hs : t.subtreeAt path = .ok s)
    (cs : List (Tree α)) : t.appendEach path cs = t.changeAt (.appendChildren cs) path := by
  have happly (s : Tree α) (cs : List (Tree α)) :
      (Change.appendChildren cs).apply s = .ok (s.appendChildren cs) := rfl
  rw [changeAt_of_apply hs (happly s cs)]
  induction cs generalizing t s with
  | nil =>
    have hnothing : s.appendChildren [] = s := by
      rw [appendChildren, List.append_nil, node_value_children]
    rw [hnothing, replaceAt_self hs]
    rfl
  | cons c cs ih =>
    obtain ⟨t', ht'⟩ := exists_replaceAt_eq_ok hs (s.appendChild c)
    have hfirst : t.changeAt (.appendChild c) path = ⟨.ok (), t'⟩ := by
      rw [changeAt_of_apply hs (m := .appendChild c) rfl, ht']
      rfl
    obtain ⟨t'', ht''⟩ := exists_replaceAt_eq_ok hs (s.appendChildren (c :: cs))
    have hrest : t'.replaceAt path ((s.appendChild c).appendChildren cs) = .ok t'' := by
      rw [replaceAt_replaceAt ht', ← appendChildren_cons, ht'']
    rw [appendEach, hfirst, ht'']
    dsimp only
    rw [ih (subtreeAt_replaceAt hs ht'), hrest]
    rfl

/-- A node has as many nodes below it as a walk over its children visits. -/
theorem size_node_eq (v : α) (cs : List (Tree α)) :
    (node v cs).size = (leaf v).size + (Walk.mk cs).length := by
  rw [leaf, size_node, size_node]
  rfl

theorem size_appendChildren (s : Tree α) (cs : List (Tree α)) :
    (s.appendChildren cs).size = s.size + (Walk.mk cs).length := by
  obtain ⟨v, ds⟩ := s
  rw [appendChildren, value_node, children_node, size_node_eq, size_node_eq, Walk.length_append,
    Nat.add_assoc]

theorem size_changeAt_appendChildren {t s : Tree α} {path : List Nat}
    (hs : t.subtreeAt path = .ok s) (cs : List (Tree α)) :
    (t.changeAt (.appendChildren cs) path).tree.size = t.size + (Walk.mk cs).length := by
  obtain ⟨t', ht'⟩ := exists_replaceAt_eq_ok hs (s.appendChildren cs)
  have hsize := size_replaceAt hs ht'
  rw [size_appendChildren] at hsize
  rw [changeAt_of_apply hs (m := .appendChildren cs) rfl, ht', Change.leave]
  dsimp only
  omega

/-- **Insertions splice the walk.** When a child is inserted at a path, the walk over the whole tree
comes to the same values as before, with those of the child put in as one block: in front of the
child that had the index, or behind the last node below the parent. The paths tell the places, as
they lead to what the walk comes to. To append a child is to insert it at the end, to append several
children or to make a node of them is to append them one by one, and the number of nodes grows by
that of the new ones. -/
theorem walk_insertChild {t s : Tree α} {path : List Nat} (hs : t.subtreeAt path = .ok s) :
    t.paths.map t.subtreeAt = (Walk.start t).toList.map .ok ∧
    (∀ i c, i ≤ s.arity →
      ∃ t' before behind, t.changeAt (.insertChild i c) path = ⟨.ok (), t'⟩ ∧
        Spliced path i s.arity c t t' before behind ∧ t'.size = t.size + c.size) ∧
    (∀ c, t.changeAt (.appendChild c) path = t.changeAt (.insertChild s.arity c) path) ∧
    (∀ cs, t.changeAt (.appendChildren cs) path = t.appendEach path cs ∧
      (t.changeAt (.appendChildren cs) path).tree.size = t.size + (Walk.mk cs).length) ∧
    ∀ (v : α) cs, appendEach [] (leaf v) cs = ⟨.ok (), node v cs⟩ ∧
      (node v cs).size = (leaf v).size + (Walk.mk cs).length := by
  refine ⟨?_, fun i c hi => exists_changeAt_insertChild hs hi c, changeAt_appendChild_eq hs,
    fun cs => ⟨(appendEach_eq hs cs).symm, size_changeAt_appendChildren hs cs⟩, fun v cs => ⟨?_,
      size_node_eq v cs⟩⟩
  · rw [map_subtreeAt_paths, Walk.toList_start]
  · have hroot : (leaf v).subtreeAt [] = .ok (leaf v) := rfl
    exact appendEach_eq hroot cs

/-- A tree of two nodes behind the only child of a node, and in front of it. -/
theorem walk_insertChild_family :
    ∃ t new : Tree String, t = node "root" [node "child" [leaf "grandchild"], leaf "other"] ∧
      new = node "new" [leaf "below"] ∧
      (∃ t' before behind, t.changeAt (.insertChild 1 new) [0] = ⟨.ok (), t'⟩ ∧
        Spliced [0] 1 1 new t t' before behind ∧ t'.size = 6) ∧
      (∃ t' before behind, t.changeAt (.insertChild 0 new) [0] = ⟨.ok (), t'⟩ ∧
        Spliced [0] 0 1 new t t' before behind ∧ behind.head? = some [0, 0]) ∧
      t.changeAt (.appendChild new) [0] = t.changeAt (.insertChild 1 new) [0] := by
  have hs : (node "root" [node "child" [leaf "grandchild"], leaf "other"]).subtreeAt [0] =
      .ok (node "child" [leaf "grandchild"]) := rfl
  obtain ⟨-, hinsert, happend, -, -⟩ := walk_insertChild hs
  refine ⟨_, node "new" [leaf "below"], rfl, rfl, ?_, ?_, happend _⟩
  · exact hinsert 1 (node "new" [leaf "below"]) (by decide)
  · obtain ⟨t', before, behind, ht', hspliced, -⟩ :=
      hinsert 0 (node "new" [leaf "below"]) (by decide)
    exact ⟨t', before, behind, ht', hspliced, hspliced.inside (by decide)⟩

end Tree

end TreeText
