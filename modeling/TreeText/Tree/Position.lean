import TreeText.Tree.Path
import TreeText.Tree.Walk

/-!
# Nodes as places, and containment

Two nodes can be equal as trees and still be two nodes. What tells them apart is their place: the
tree that they belong to and their path from its root. A node contains another one if the walk that
starts at it comes to the place of the other one.

Results:
* `Tree.map_located`: putting its path beside each value changes nothing else.
* `Node.contains_of_owner_ne`: a node contains no node of another tree.
-/

namespace TreeText

universe u

variable {α : Type u}

namespace Tree

mutual

/-- The tree with each value paired with the path of its node, where `path` is that of the root. -/
def located (path : List Nat) : Tree α → Tree (List Nat × α)
  | node v cs => node (path, v) (locatedFrom path 0 cs)

/-- The children of the node at `path`, from the one with index `i` on. -/
def locatedFrom (path : List Nat) (i : Nat) : List (Tree α) → List (Tree (List Nat × α))
  | [] => []
  | c :: cs => c.located (path ++ [i]) :: locatedFrom path (i + 1) cs

end

theorem map_located (path : List Nat) (t : Tree α) : (t.located path).map Prod.snd = t := by
  induction t generalizing path with
  | node v cs ih =>
    have hall : ∀ i, (locatedFrom path i cs).map (map Prod.snd) = cs := by
      induction cs with
      | nil => intro i; rfl
      | cons c cs ihcs =>
        intro i
        rw [locatedFrom, List.map_cons, ih c (List.mem_cons_self ..),
          ihcs fun d hd => ih d (List.mem_cons_of_mem c hd)]
    rw [located, map_node, hall]

end Tree

/-- A node of a tree: `root` is the whole tree, `path` leads from there to the node. The trees that
exist side by side have different owners; a tree that is not kept anywhere has none. -/
structure Node (α : Type u) where
  owner : Option String
  root : Tree α
  path : List Nat

namespace Node

/-- The tree below the node. -/
def subtree (n : Node α) : Except Error (Tree α) := n.root.subtreeAt n.path

/-- A node that nothing else refers to. -/
def fresh (t : Tree α) : Node α := ⟨none, t, []⟩

/-- Whether two nodes are one: nodes of one kept tree at one path. -/
def isSame (n : Node α) (owner : Option String) (path : List Nat) : Bool :=
  n.owner.isSome && n.owner == owner && n.path == path

/-- Whether the walk from `n` comes to the place of `m`. Both paths must lead to a node; that of `n`
is followed first. -/
def contains (n m : Node α) : Except Error Bool :=
  match n.subtree, m.subtree with
  | .error e, _ => .error e
  | .ok _, .error e => .error e
  | .ok t, .ok _ =>
    .ok ((Walk.start (t.located n.path)).any fun s => m.isSame n.owner s.value.1)

theorem contains_of_owner_ne {n m : Node α} {t s : Tree α} (hn : n.subtree = .ok t)
    (hm : m.subtree = .ok s) (h : m.owner ≠ n.owner) : n.contains m = .ok false := by
  have hne : (m.owner == n.owner) = false := by simpa using h
  simp [contains, hn, hm, isSame, hne, Walk.any_eq]

end Node

end TreeText
