import TreeText.Tree.Change

/-!
# What a change leaves as it was

A change at a path reaches the node at the end of the path and no other one: nodes above it keep
their values and their numbers of children, and nodes beside it stay as they are, with all that is
below them. If the path leads nowhere, or the node has no place for what is to be inserted, the whole
tree stays as it was, and the error names the first index that is out of range.

Results:
* `Tree.subtreeAt_eq_error_iff`: where a path that leads nowhere leaves the tree.
* `Tree.modifyAt_eq_error_iff`: how a change at a path fails.
* `Tree.modifyAt_append`: a change below a node is a change of this node.
* `Tree.subtreeAt_modifyAt_of_not_prefix`: nodes beside the path stay as they are.
* `Tree.changeAt_local`: what a change in place does, to every node of the tree.
-/

namespace TreeText

universe u

variable {α : Type u}

namespace Tree

/-! ## Paths that lead nowhere -/

theorem subtreeAt_of_arity_le {t s : Tree α} {path : List Nat} {i : Nat}
    (hs : t.subtreeAt path = .ok s) (hi : s.arity ≤ i) (rest : List Nat) :
    t.subtreeAt (path ++ i :: rest) = .error (.indexOutOfRange i s.arity) := by
  rw [subtreeAt_append, hs]
  show s.subtreeAt (i :: rest) = _
  rw [subtreeAt, childAt_eq_error_iff.mpr ⟨hi, rfl⟩]

/-- A path leads nowhere if some node on it does not have the next child, and the first such node is
the one that the error is about. -/
theorem subtreeAt_eq_error_iff {t : Tree α} {path : List Nat} {e : Error} :
    t.subtreeAt path = .error e ↔
      ∃ q i rest s, path = q ++ i :: rest ∧ t.subtreeAt q = .ok s ∧ s.arity ≤ i ∧
        e = .indexOutOfRange i s.arity := by
  constructor
  · intro h
    induction path generalizing t with
    | nil => cases h
    | cons i path ih =>
      cases hc : t.childAt i with
      | error e' =>
        rw [subtreeAt, hc] at h
        cases h
        obtain ⟨hi, he⟩ := childAt_eq_error_iff.mp hc
        exact ⟨[], i, path, t, rfl, rfl, hi, he⟩
      | ok c =>
        rw [subtreeAt_cons hc] at h
        obtain ⟨q, j, rest, s, rfl, hs, hj, he⟩ := ih h
        exact ⟨i :: q, j, rest, s, rfl, by rw [subtreeAt_cons hc, hs], hj, he⟩
  · rintro ⟨q, i, rest, s, rfl, hs, hi, rfl⟩
    exact subtreeAt_of_arity_le hs hi rest

/-! ## Changes at a path -/

section

variable {f : Tree α → Except Error (Tree α)} {t t' : Tree α} {path : List Nat}

/-- A change at a path fails as following the path fails, or else as the change of the node at its end
fails. -/
theorem modifyAt_eq_error_iff {e : Error} :
    t.modifyAt f path = .error e ↔ (t.subtreeAt path).bind f = .error e := by
  induction path generalizing t with
  | nil => exact Iff.rfl
  | cons i path ih =>
    rw [modifyAt, subtreeAt]
    cases t.childAt i with
    | error e' => exact Iff.rfl
    | ok c =>
      dsimp only
      rw [← ih]
      cases c.modifyAt f path <;> simp

theorem modifyAt_of_subtreeAt_error {e : Error} (h : t.subtreeAt path = .error e) :
    t.modifyAt f path = .error e := by
  apply modifyAt_eq_error_iff.mpr
  rw [h]
  rfl

theorem modifyAt_of_apply_error {s : Tree α} {e : Error} (hs : t.subtreeAt path = .ok s)
    (hf : f s = .error e) : t.modifyAt f path = .error e := by
  apply modifyAt_eq_error_iff.mpr
  rw [hs]
  exact hf

theorem exists_modifyAt_eq_ok {s s' : Tree α} (hs : t.subtreeAt path = .ok s) (hf : f s = .ok s') :
    ∃ t', t.modifyAt f path = .ok t' := by
  cases hm : t.modifyAt f path with
  | ok t' => exact ⟨t', rfl⟩
  | error e =>
    have hfails := modifyAt_eq_error_iff.mp hm
    rw [hs] at hfails
    cases hf.symm.trans hfails

/-- To change what is below a node is to change this node. -/
theorem modifyAt_append (f : Tree α → Except Error (Tree α)) (t : Tree α) (q rest : List Nat) :
    t.modifyAt f (q ++ rest) = t.modifyAt (fun s => s.modifyAt f rest) q := by
  induction q generalizing t with
  | nil => rfl
  | cons i q ih =>
    rw [List.cons_append, modifyAt, modifyAt]
    cases t.childAt i with
    | error e => rfl
    | ok c => simp only [ih]

/-- The other children of a node stay in their places when one of them is replaced. -/
theorem childAt_set_of_ne {i j : Nat} (h : i ≠ j) (t c : Tree α) :
    (node t.value (t.children.set i c)).childAt j = t.childAt j := by
  simp [childAt, arity, List.getElem?_set_ne h]

/-- A node whose path neither leads to the changed node nor goes on from there stays as it is, with
all that is below it. -/
theorem subtreeAt_modifyAt_of_not_prefix {q : List Nat} (h : t.modifyAt f path = .ok t')
    (hbelow : ¬ path <+: q) (habove : ¬ q <+: path) : t'.subtreeAt q = t.subtreeAt q := by
  induction path generalizing t t' q with
  | nil => exact absurd List.nil_prefix hbelow
  | cons i path ih =>
    cases q with
    | nil => exact absurd List.nil_prefix habove
    | cons j q =>
      obtain ⟨c, c', hc, hc', rfl⟩ := modifyAt_cons_eq_ok_iff.mp h
      by_cases hij : i = j
      · subst hij
        rw [subtreeAt_cons (childAt_set hc c'), subtreeAt_cons hc]
        refine ih hc' (fun hp => hbelow ?_) (fun hp => habove ?_)
        · exact List.cons_prefix_cons.mpr ⟨rfl, hp⟩
        · exact List.cons_prefix_cons.mpr ⟨rfl, hp⟩
      · rw [subtreeAt, subtreeAt, childAt_set_of_ne hij]

/-- A node above the changed one keeps its value and the number of its children. -/
theorem subtreeAt_modifyAt_of_prefix {q : List Nat} (h : t.modifyAt f path = .ok t')
    (hq : q <+: path) (hne : q ≠ path) :
    ∃ a a', t.subtreeAt q = .ok a ∧ t'.subtreeAt q = .ok a' ∧ a'.value = a.value ∧
      a'.arity = a.arity := by
  obtain ⟨_ | ⟨i, rest⟩, rfl⟩ := hq
  · exact absurd (List.append_nil q).symm hne
  · rw [modifyAt_append] at h
    have hchanged := subtreeAt_modifyAt h
    cases ha : t.subtreeAt q with
    | error e =>
      rw [modifyAt_of_subtreeAt_error ha] at h
      cases h
    | ok a =>
      cases hm : a.modifyAt f (i :: rest) with
      | error e =>
        rw [modifyAt_of_apply_error ha hm] at h
        cases h
      | ok a' =>
        refine ⟨a, a', rfl, by rw [hchanged, ha]; exact hm, ?_⟩
        obtain ⟨c, c', -, -, rfl⟩ := modifyAt_cons_eq_ok_iff.mp hm
        exact ⟨rfl, List.length_set⟩

end

end Tree

/-! ## Changes of one node -/

namespace Change

/-- Whether a node has a place for the change: children are inserted in front of a child or behind
all of them, and everything else can always be done. -/
def Fits : Change α → Tree α → Prop
  | insertChild index _, t => index ≤ t.arity
  | _, _ => True

instance (m : Change α) (t : Tree α) : Decidable (m.Fits t) :=
  match m with
  | insertChild index _ => inferInstanceAs (Decidable (index ≤ t.arity))
  | setValue _ | appendChild _ | appendChildren _ => inferInstanceAs (Decidable True)

/-- What the node `s'` has of the node `s` after a change. -/
def Makes : Change α → Tree α → Tree α → Prop
  | setValue v, s, s' => s'.value = v ∧ s'.children = s.children
  | insertChild i child, s, s' =>
    s'.value = s.value ∧ s'.children = s.children.take i ++ child :: s.children.drop i ∧
      s'.childAt i = .ok child ∧
      ∀ j, s'.children[if j < i then j else j + 1]? = s.children[j]?
  | appendChild child, s, s' => s'.value = s.value ∧ s'.children = s.children ++ [child]
  | appendChildren new, s, s' => s'.value = s.value ∧ s'.children = s.children ++ new

/-- A child in front of the inserted one keeps its index, and every other one moves up by one. -/
theorem getElem?_append_cons (before behind : List (Tree α)) (child : Tree α) (j : Nat) :
    (before ++ child :: behind)[if j < before.length then j else j + 1]? =
      (before ++ behind)[j]? := by
  by_cases hj : j < before.length
  · rw [if_pos hj, List.getElem?_append_left hj, List.getElem?_append_left hj]
  · have hle : before.length ≤ j := Nat.le_of_not_lt hj
    rw [if_neg hj, List.getElem?_append_right (by omega), List.getElem?_append_right hle,
      show j + 1 - before.length = j - before.length + 1 by omega, List.getElem?_cons_succ]

theorem exists_apply_eq_ok {m : Change α} {s : Tree α} (h : m.Fits s) :
    ∃ s', m.apply s = .ok s' ∧ m.Makes s s' := by
  cases m with
  | setValue v => exact ⟨_, rfl, rfl, rfl⟩
  | insertChild i child =>
    have hlength : (s.children.take i).length = i := List.length_take_of_le h
    refine ⟨_, Tree.insertChild_of_le h child, rfl, rfl, ?_, fun j => ?_⟩
    · rw [Tree.childAt_eq_ok_iff, Tree.children_node,
        List.getElem?_append_right (Nat.le_of_eq hlength), hlength, Nat.sub_self]
      rfl
    · have hshift := getElem?_append_cons (s.children.take i) (s.children.drop i) child j
      rw [hlength, List.take_append_drop] at hshift
      exact hshift
  | appendChild child => exact ⟨_, rfl, rfl, rfl⟩
  | appendChildren new => exact ⟨_, rfl, rfl, rfl⟩

/-- Only an insertion can fail, at an index behind the number of children. -/
theorem apply_eq_error_of_not_fits {m : Change α} {s : Tree α} (h : ¬ m.Fits s) :
    ∃ i child, m = .insertChild i child ∧ s.arity < i ∧
      m.apply s = .error (.indexOutOfRange i s.arity) := by
  cases m with
  | insertChild i child => exact ⟨i, child, rfl, Nat.lt_of_not_le h, if_neg h⟩
  | setValue v => exact absurd trivial h
  | appendChild child => exact absurd trivial h
  | appendChildren new => exact absurd trivial h

/-! ## The whole tree -/

/-- How the tree `t'` is related to the tree `t` when the change `m` has been made at a path. -/
structure MadeAt (m : Change α) (path : List Nat) (t t' : Tree α) : Prop where
  /-- The node at the path is the changed one. -/
  node : ∃ s s', t.subtreeAt path = .ok s ∧ t'.subtreeAt path = .ok s' ∧ m.Makes s s'
  /-- Nodes neither above nor below it are the same, with all that is below them. -/
  beside : ∀ q, ¬ path <+: q → ¬ q <+: path → t'.subtreeAt q = t.subtreeAt q
  /-- Nodes above it keep their value and number of children. -/
  above : ∀ q, q <+: path → q ≠ path → ∃ a a', t.subtreeAt q = .ok a ∧ t'.subtreeAt q = .ok a' ∧
    a'.value = a.value ∧ a'.arity = a.arity

/-- Whether `i` is the first index that is out of range, at a node with `n` children: an index of the
path, or else the index of an insertion at its end. -/
def Offends (m : Change α) (path : List Nat) (t : Tree α) (i n : Nat) : Prop :=
  (∃ q rest s, path = q ++ i :: rest ∧ t.subtreeAt q = .ok s ∧ s.arity = n ∧ n ≤ i) ∨
    ∃ child s, m = .insertChild i child ∧ t.subtreeAt path = .ok s ∧ s.arity = n ∧ n < i

end Change

namespace Tree

open Change

theorem exists_changeAt_of_fits {m : Change α} {t s : Tree α} {path : List Nat}
    (hs : t.subtreeAt path = .ok s) (hfits : m.Fits s) :
    ∃ t', t.changeAt m path = ⟨.ok (), t'⟩ ∧ m.MadeAt path t t' := by
  obtain ⟨s', hs', hmakes⟩ := exists_apply_eq_ok hfits
  obtain ⟨t', ht'⟩ := exists_modifyAt_eq_ok hs hs'
  refine ⟨t', by rw [changeAt_eq, ht']; rfl, ⟨s, s', hs, ?_, hmakes⟩, ?_, ?_⟩
  · rw [subtreeAt_modifyAt ht', hs]
    exact hs'
  · intro q hbelow habove
    exact subtreeAt_modifyAt_of_not_prefix ht' hbelow habove
  · intro q hq hne
    exact subtreeAt_modifyAt_of_prefix ht' hq hne

theorem changeAt_of_offends {m : Change α} {t : Tree α} {path : List Nat} {i n : Nat}
    (h : m.Offends path t i n) : t.changeAt m path = ⟨.error (.indexOutOfRange i n), t⟩ := by
  rw [changeAt_eq]
  rcases h with ⟨q, rest, s, rfl, hs, rfl, hi⟩ | ⟨child, s, rfl, hs, rfl, hi⟩
  · rw [modifyAt_of_subtreeAt_error (subtreeAt_of_arity_le hs hi rest)]
    rfl
  · have hnot : ¬ i ≤ s.arity := Nat.not_le_of_lt hi
    have happly : (Change.insertChild i child).apply s = .error (.indexOutOfRange i s.arity) :=
      if_neg hnot
    rw [modifyAt_of_apply_error hs happly]
    rfl

theorem fits_or_offends (m : Change α) (t : Tree α) (path : List Nat) :
    (∃ s, t.subtreeAt path = .ok s ∧ m.Fits s) ∨ ∃ i n, m.Offends path t i n := by
  cases hs : t.subtreeAt path with
  | error e =>
    obtain ⟨q, i, rest, s, hpath, hq, hi, -⟩ := subtreeAt_eq_error_iff.mp hs
    exact .inr ⟨i, s.arity, .inl ⟨q, rest, s, hpath, hq, rfl, hi⟩⟩
  | ok s =>
    by_cases hfits : m.Fits s
    · exact .inl ⟨s, rfl, hfits⟩
    · obtain ⟨i, child, hm, hi, -⟩ := apply_eq_error_of_not_fits hfits
      exact .inr ⟨i, s.arity, .inr ⟨child, s, hm, hs, rfl, hi⟩⟩

/-- **Changes are local, and made as a whole or not at all.** If a path leads to a node that has a
place for a change, the change is made there: the node becomes the changed one, nodes above it keep
their values and numbers of children, and nodes beside it stay as they are. Otherwise an index of the
path, or the index of the insertion, is out of range; then the error names the first such index, with
the number of children that there are, and the tree stays as it was. -/
theorem changeAt_local (m : Change α) (t : Tree α) (path : List Nat) :
    (∀ s, t.subtreeAt path = .ok s → m.Fits s →
      ∃ t', t.changeAt m path = ⟨.ok (), t'⟩ ∧ m.MadeAt path t t') ∧
    (∀ i n, m.Offends path t i n →
      t.changeAt m path = ⟨.error (.indexOutOfRange i n), t⟩) ∧
    ((∃ s, t.subtreeAt path = .ok s ∧ m.Fits s) ∨ ∃ i n, m.Offends path t i n) :=
  ⟨fun _ hs hfits => exists_changeAt_of_fits hs hfits, fun _ _ h => changeAt_of_offends h,
    fits_or_offends m t path⟩

/-- An insertion in front of a grandchild, a path that leaves the tree halfway, and an insertion
behind the last place. -/
theorem changeAt_local_family :
    ∃ t : Tree String, t = node "root" [node "child" [leaf "grandchild"], leaf "other"] ∧
      (∃ t', t.changeAt (.insertChild 0 (leaf "new")) [0] = ⟨.ok (), t'⟩ ∧
        t'.subtreeAt [0, 1] = .ok (leaf "grandchild") ∧ t'.subtreeAt [1] = .ok (leaf "other")) ∧
      t.changeAt (.setValue "new") [0, 3, 1] = ⟨.error (.indexOutOfRange 3 1), t⟩ ∧
      t.changeAt (.insertChild 3 (leaf "new")) [] = ⟨.error (.indexOutOfRange 3 2), t⟩ := by
  refine ⟨_, rfl, ?_, ?_, ?_⟩
  · obtain ⟨t', ht', hmade⟩ := (changeAt_local (.insertChild 0 (leaf "new"))
      (node "root" [node "child" [leaf "grandchild"], leaf "other"]) [0]).1 _ rfl (by decide)
    obtain ⟨s, s', hs, hs', -, hchildren, -⟩ := hmade.node
    cases hs
    refine ⟨t', ht', ?_, ?_⟩
    · rw [show [0, 1] = [0] ++ [1] from rfl, subtreeAt_append, hs']
      show s'.subtreeAt [1] = _
      rw [subtreeAt, childAt, hchildren]
      rfl
    · rw [hmade.beside [1] (by decide) (by decide)]
      rfl
  · exact (changeAt_local _ _ _).2.1 3 1 (.inl ⟨[0], [1], _, rfl, rfl, rfl, by decide⟩)
  · exact (changeAt_local _ _ _).2.1 3 2 (.inr ⟨_, _, rfl, rfl, rfl, by decide⟩)

end Tree

end TreeText
