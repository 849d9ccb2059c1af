import TreeText.Tree.Basic

/-!
# Walking through a tree

A walk visits the nodes of a tree in preorder, one at a time. It keeps the nodes whose turn is still
to come in a stack: a visit takes the top one off and puts its children in its place, the first
child on top. A walk past its end gives nothing and stays at its end.

Results:
* `Walk.toList_start`: the walk that starts at a tree visits its nodes in preorder.
-/

namespace TreeText

universe u

variable {α : Type u}

/-- The trees that are still to be visited, the next one first. -/
structure Walk (α : Type u) where
  stack : List (Tree α)

namespace Walk

/-- The walk that has the whole of `t` before it. -/
def start (t : Tree α) : Walk α := ⟨[t]⟩

/-- Visits one more node. -/
def next (w : Walk α) : Option (Tree α) × Walk α :=
  match w.stack with
  | [] => (none, w)
  | t :: rest => (some t, ⟨t.children ++ rest⟩)

/-- The number of nodes that are still to be visited. -/
def length (w : Walk α) : Nat := w.stack.foldr (fun t n => t.size + n) 0

/-- The numbers of nodes of two lists of trees add up. -/
theorem length_append (cs rest : List (Tree α)) :
    (⟨cs ++ rest⟩ : Walk α).length = (⟨cs⟩ : Walk α).length + (⟨rest⟩ : Walk α).length := by
  induction cs with
  | nil => simp [length]
  | cons c cs ih =>
    simp only [length, List.cons_append, List.foldr_cons] at ih ⊢
    omega

theorem length_next {w w' : Walk α} {t : Tree α} (h : w.next = (some t, w')) :
    w'.length < w.length := by
  obtain ⟨_ | ⟨⟨v, cs⟩, rest⟩⟩ := w
  · simp [next] at h
  · simp only [next, Prod.mk.injEq] at h
    obtain ⟨-, rfl⟩ := h
    rw [Tree.children_node, length_append]
    simp only [length, List.foldr_cons, Tree.size_node]
    omega

/-- What the next `n` visits give. -/
def take : Nat → Walk α → List (Option (Tree α))
  | 0, _ => []
  | n + 1, w => w.next.1 :: w.next.2.take n

/-- The nodes that are still to be visited, in order. -/
def toList (w : Walk α) : List (Tree α) :=
  match _h : w.next with
  | (none, _) => []
  | (some t, w') => t :: w'.toList
termination_by w.length
decreasing_by exact length_next _h

/-- Whether some node that is still to be visited passes a test. -/
def any (p : Tree α → Bool) (w : Walk α) : Bool :=
  match _h : w.next with
  | (none, _) => false
  | (some t, w') => p t || w'.any p
termination_by w.length
decreasing_by exact length_next _h

theorem toList_nil : (⟨[]⟩ : Walk α).toList = [] := by
  rw [toList]; rfl

theorem toList_cons (t : Tree α) (rest : List (Tree α)) :
    (⟨t :: rest⟩ : Walk α).toList = t :: (⟨t.children ++ rest⟩ : Walk α).toList := by
  rw [toList]; rfl

theorem any_eq (p : Tree α → Bool) (w : Walk α) : w.any p = w.toList.any p := by
  fun_induction any p w with
  | case1 w w' h => rw [toList, h]; rfl
  | case2 w t w' h ih => rw [toList, h, ih]; rfl

/-- The walk goes through the trees of its stack one after the other. -/
theorem toList_stack (stack : List (Tree α)) :
    (⟨stack⟩ : Walk α).toList = stack.flatMap Tree.subtrees := by
  generalize hn : (⟨stack⟩ : Walk α).length = n
  induction n using Nat.strongRecOn generalizing stack with
  | ind n ih =>
    match stack, hn with
    | [], _ => simp [toList_nil]
    | ⟨v, cs⟩ :: rest, hn =>
      have hlt : (⟨cs ++ rest⟩ : Walk α).length < n :=
        hn ▸ length_next (w := ⟨.node v cs :: rest⟩) rfl
      rw [toList_cons, Tree.children_node, ih _ hlt _ rfl]
      simp [Tree.subtrees_node]

theorem toList_start (t : Tree α) : (start t).toList = t.subtrees := by
  simp [start, toList_stack]

end Walk

end TreeText
