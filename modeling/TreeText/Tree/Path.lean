import TreeText.Error
import TreeText.Tree.Basic

/-!
# Nodes by their paths, and changes at a path

A path is a list of child indexes and leads from a node down to one of its descendants. Following a
path fails at the first index that the node reached so far does not have. A change at a path leaves
the tree as it was if it fails.

Results:
* `Tree.subtreeAt_append`: a path that consists of two is followed part by part.
* `Tree.subtreeAt_modifyAt`: after a change at a path, following it reaches the changed node.
* `Tree.appendChild_eq_insertChild`: to append is to insert at the end.
-/

namespace TreeText

namespace Tree

universe u

variable {α : Type u}

/-! ## Following a path -/

/-- The child at an index. -/
def childAt (t : Tree α) (index : Nat) : Except Error (Tree α) :=
  match t.children[index]? with
  | some c => .ok c
  | none => .error (.indexOutOfRange index t.arity)

/-- The node that a path leads to, as the tree below it. -/
def subtreeAt (t : Tree α) : List Nat → Except Error (Tree α)
  | [] => .ok t
  | i :: path =>
    match t.childAt i with
    | .error e => .error e
    | .ok c => c.subtreeAt path

/-- The tree with `f` applied to the node that a path leads to. -/
def modifyAt (f : Tree α → Except Error (Tree α)) (t : Tree α) :
    List Nat → Except Error (Tree α)
  | [] => f t
  | i :: path =>
    match t.childAt i with
    | .error e => .error e
    | .ok c =>
      match c.modifyAt f path with
      | .error e => .error e
      | .ok c' => .ok (node t.value (t.children.set i c'))

/-- The tree with `s` in place of the node that a path leads to. -/
def replaceAt (t : Tree α) (path : List Nat) (s : Tree α) : Except Error (Tree α) :=
  t.modifyAt (fun _ => .ok s) path

/-! ## Changes of one node -/

/-- The node with another value. -/
def setValue (t : Tree α) (v : α) : Tree α := node v t.children

/-- The node with `child` in front of the child at `index`, or behind all children if `index` is
their number. -/
def insertChild (t : Tree α) (index : Nat) (child : Tree α) : Except Error (Tree α) :=
  if index ≤ t.arity then .ok (node t.value (t.children.take index ++ child :: t.children.drop index))
  else .error (.indexOutOfRange index t.arity)

/-- The node with `child` behind all its children. -/
def appendChild (t : Tree α) (child : Tree α) : Tree α :=
  node t.value (t.children ++ [child])

/-- The node with `new` behind all its children, in order. -/
def appendChildren (t : Tree α) (new : List (Tree α)) : Tree α :=
  node t.value (t.children ++ new)

/-! ## Laws -/

theorem childAt_eq_ok_iff {t c : Tree α} {i : Nat} :
    t.childAt i = .ok c ↔ t.children[i]? = some c := by
  unfold childAt
  cases t.children[i]? <;> simp

theorem childAt_eq_error_iff {t : Tree α} {i : Nat} {e : Error} :
    t.childAt i = .error e ↔ t.arity ≤ i ∧ e = .indexOutOfRange i t.arity := by
  unfold childAt
  rw [arity, ← List.getElem?_eq_none_iff]
  cases t.children[i]? <;> simp [eq_comm]

theorem subtreeAt_cons {t c : Tree α} {i : Nat} (h : t.childAt i = .ok c) (path : List Nat) :
    t.subtreeAt (i :: path) = c.subtreeAt path := by
  rw [subtreeAt, h]

theorem subtreeAt_cons_eq_ok_iff {t s : Tree α} {i : Nat} {path : List Nat} :
    t.subtreeAt (i :: path) = .ok s ↔ ∃ c, t.childAt i = .ok c ∧ c.subtreeAt path = .ok s := by
  rw [subtreeAt]
  cases t.childAt i <;> simp

theorem subtreeAt_append (t : Tree α) (p q : List Nat) :
    t.subtreeAt (p ++ q) = (t.subtreeAt p).bind fun s => s.subtreeAt q := by
  induction p generalizing t with
  | nil => rfl
  | cons i p ih =>
    simp only [List.cons_append, subtreeAt]
    split
    · rfl
    · exact ih _

/-- A change below a child replaces this child. -/
theorem modifyAt_cons_eq_ok_iff {f : Tree α → Except Error (Tree α)} {t t' : Tree α} {i : Nat}
    {path : List Nat} :
    t.modifyAt f (i :: path) = .ok t' ↔
      ∃ c c', t.childAt i = .ok c ∧ c.modifyAt f path = .ok c' ∧
        node t.value (t.children.set i c') = t' := by
  rw [modifyAt]
  cases t.childAt i with
  | error e => simp
  | ok c => cases hm : c.modifyAt f path <;> simp [hm]

theorem childAt_set {t c : Tree α} {i : Nat} (h : t.childAt i = .ok c) (c' : Tree α) :
    (node t.value (t.children.set i c')).childAt i = .ok c' := by
  obtain ⟨hi, -⟩ := List.getElem?_eq_some_iff.mp (childAt_eq_ok_iff.mp h)
  rw [childAt_eq_ok_iff, children_node, List.getElem?_set_self hi]

theorem subtreeAt_modifyAt {f : Tree α → Except Error (Tree α)} {t t' : Tree α} {path : List Nat}
    (h : t.modifyAt f path = .ok t') : t'.subtreeAt path = (t.subtreeAt path).bind f := by
  induction path generalizing t t' with
  | nil => exact h.symm
  | cons i path ih =>
    obtain ⟨c, c', hc, hc', rfl⟩ := modifyAt_cons_eq_ok_iff.mp h
    rw [subtreeAt_cons (childAt_set hc c'), subtreeAt_cons hc]
    exact ih hc'

theorem insertChild_of_le {t : Tree α} {index : Nat} (h : index ≤ t.arity) (child : Tree α) :
    t.insertChild index child
      = .ok (node t.value (t.children.take index ++ child :: t.children.drop index)) := by
  rw [insertChild, if_pos h]

theorem appendChild_eq_insertChild (t child : Tree α) :
    t.insertChild t.arity child = .ok (t.appendChild child) := by
  rw [insertChild_of_le (Nat.le_refl _)]
  simp [appendChild, arity]

theorem appendChildren_cons (t child : Tree α) (new : List (Tree α)) :
    t.appendChildren (child :: new) = (t.appendChild child).appendChildren new := by
  simp [appendChildren, appendChild]

end Tree

end TreeText
