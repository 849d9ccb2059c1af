import TreeText.Tree.Path

/-!
# Changes in place

A change gives a node another value or more children. It is carried out in place, on the node that a
path leads to. On the way down each node hands out one child, and on the way back it takes this
child in again as it comes, whether the change was made or not. What a change leaves behind is
therefore a tree in any case, next to the outcome.

Results:
* `Tree.changeAt_eq`: what stays behind is the tree with the change at the path, or else the tree as
  it was.
-/

namespace TreeText

universe u

variable {α : Type u}

/-- The ways to change a node. -/
inductive Change (α : Type u) where
  | setValue (v : α)
  | insertChild (index : Nat) (child : Tree α)
  | appendChild (child : Tree α)
  | appendChildren (new : List (Tree α))

/-- The outcome of a change in place, and the tree that stays behind. -/
structure Changed (α : Type u) where
  outcome : Except Error Unit
  tree : Tree α

namespace Change

/-- The node that a change makes of a node. -/
def apply : Change α → Tree α → Except Error (Tree α)
  | setValue v, t => .ok (t.setValue v)
  | insertChild index child, t => t.insertChild index child
  | appendChild child, t => .ok (t.appendChild child)
  | appendChildren new, t => .ok (t.appendChildren new)

/-- What stays behind of the tree `t`, where `r` is the changed one. -/
def leave (t : Tree α) (r : Except Error (Tree α)) : Changed α :=
  match r with
  | .ok t' => ⟨.ok (), t'⟩
  | .error e => ⟨.error e, t⟩

end Change

namespace Tree

/-- A change in place of the node that a path leads to. -/
def changeAt (m : Change α) (t : Tree α) : List Nat → Changed α
  | [] => Change.leave t (m.apply t)
  | i :: path =>
    match t.childAt i with
    | .error e => ⟨.error e, t⟩
    | .ok c =>
      let below := c.changeAt m path
      ⟨below.outcome, node t.value (t.children.set i below.tree)⟩

/-- A child taken in again as it was leaves the node as it was. -/
theorem node_set_of_childAt {t c : Tree α} {i : Nat} (h : t.childAt i = .ok c) :
    node t.value (t.children.set i c) = t := by
  obtain ⟨hi, rfl⟩ := List.getElem?_eq_some_iff.mp (childAt_eq_ok_iff.mp h)
  rw [List.set_getElem_self, node_value_children]

theorem changeAt_eq (m : Change α) (t : Tree α) (path : List Nat) :
    t.changeAt m path = Change.leave t (t.modifyAt m.apply path) := by
  induction path generalizing t with
  | nil => rfl
  | cons i path ih =>
    rw [changeAt, modifyAt]
    cases hc : t.childAt i with
    | error e => rfl
    | ok c =>
      simp only [ih]
      cases hm : c.modifyAt m.apply path with
      | error e => rw [Change.leave, node_set_of_childAt hc]; rfl
      | ok c' => rfl

end Tree

end TreeText
