/-!
# Ordered trees

A tree is a node that holds a value and a list of trees, its children. The order of the children
matters, and their number is not bounded. A node without children is a leaf.

Results:
* `Tree.induction`: what passes from the children of every node to the node holds of every tree.
* `Tree.fold_node`: a fold gives each node its value and the results of its children.
* `Tree.beq_iff_map_eq`: equality by `==` of trees, by that of their values.
* `Tree.beq_iff`: equality by `==` is equality, if it is so for the values.
* `Tree.length_subtrees`: the listing of all nodes in preorder has one entry per node.
-/

namespace TreeText

universe u v

/-- A value with an ordered list of children. -/
inductive Tree (α : Type u) where
  | node (value : α) (children : List (Tree α))
  deriving Inhabited

namespace Tree

variable {α : Type u} {β : Type v}

/-- A node without children. -/
def leaf (value : α) : Tree α := node value []

/-- The value at the root. -/
def value : Tree α → α
  | node v _ => v

/-- The immediate children, left to right. -/
def children : Tree α → List (Tree α)
  | node _ cs => cs

/-- How many immediate children there are. -/
def arity (t : Tree α) : Nat := t.children.length

/-- Whether there are no children. -/
def isLeaf (t : Tree α) : Bool := t.children.isEmpty

@[simp] theorem value_node (v : α) (cs : List (Tree α)) : (node v cs).value = v := rfl

@[simp] theorem children_node (v : α) (cs : List (Tree α)) : (node v cs).children = cs := rfl

theorem node_value_children (t : Tree α) : node t.value t.children = t := by
  cases t; rfl

/-! ## Induction and folds -/

/-- A property holds of every tree if each node has it whenever all its children have it. -/
@[induction_eliminator]
theorem induction {motive : Tree α → Prop}
    (node : ∀ v cs, (∀ c ∈ cs, motive c) → motive (node v cs)) (t : Tree α) : motive t :=
  Tree.rec (motive_1 := motive) (motive_2 := fun cs => ∀ c ∈ cs, motive c)
    (fun v cs ih => node v cs ih) (fun _ h => nomatch h)
    (fun _ _ ihHead ihTail _ h => by
      cases h with
      | head => exact ihHead
      | tail _ h => exact ihTail _ h) t

mutual

/-- Combines, from the leaves up, the value of each node with the results of its children. -/
def fold (f : α → List β → β) : Tree α → β
  | node v cs => f v (foldAll f cs)

/-- The results of a list of trees. -/
def foldAll (f : α → List β → β) : List (Tree α) → List β
  | [] => []
  | c :: cs => c.fold f :: foldAll f cs

end

theorem foldAll_eq_map (f : α → List β → β) (cs : List (Tree α)) :
    foldAll f cs = cs.map (fold f) := by
  induction cs with
  | nil => rfl
  | cons c cs ih => simp [foldAll, ih]

theorem fold_node (f : α → List β → β) (v : α) (cs : List (Tree α)) :
    (node v cs).fold f = f v (cs.map (fold f)) := by
  rw [fold, foldAll_eq_map]

/-- The tree of the same shape with each value replaced by its image. -/
def map (f : α → β) : Tree α → Tree β :=
  fold fun v cs => node (f v) cs

/-- How many nodes there are. -/
def size : Tree α → Nat :=
  fold fun _ ns => 1 + ns.foldr (· + ·) 0

/-- The number of edges on the longest way down from the root. -/
def height : Tree α → Nat :=
  fold fun _ hs => hs.foldr (fun h n => max (h + 1) n) 0

theorem map_node (f : α → β) (v : α) (cs : List (Tree α)) :
    (node v cs).map f = node (f v) (cs.map (map f)) :=
  fold_node _ v cs

theorem map_id (t : Tree α) : t.map id = t := by
  induction t with
  | node v cs ih => rw [map_node, List.map_congr_left ih, List.map_id', id]

theorem size_node (v : α) (cs : List (Tree α)) :
    (node v cs).size = 1 + cs.foldr (fun c n => c.size + n) 0 := by
  rw [size, fold_node, List.foldr_map]

theorem height_node (v : α) (cs : List (Tree α)) :
    (node v cs).height = (cs.map height).foldr (fun h n => max (h + 1) n) 0 :=
  fold_node _ v cs

/-- A child is lower than its parent. -/
theorem height_lt_of_mem {v : α} {cs : List (Tree α)} {c : Tree α} (h : c ∈ cs) :
    c.height < (node v cs).height := by
  rw [height_node]
  induction cs with
  | nil => nomatch h
  | cons d cs ih =>
    simp only [List.map_cons, List.foldr_cons]
    rcases List.mem_cons.mp h with rfl | h
    · omega
    · have := ih h
      omega

/-- A bound on the height of a node, by its children. -/
theorem height_le_iff {v : α} {cs : List (Tree α)} {n : Nat} :
    (node v cs).height ≤ n ↔ ∀ c ∈ cs, c.height + 1 ≤ n := by
  rw [height_node]
  induction cs with
  | nil => simp
  | cons d cs ih =>
    simp only [List.map_cons, List.foldr_cons, List.mem_cons, forall_eq_or_imp, ← ih]
    omega

/-! ## Equality -/

mutual

/-- Equal values at the roots, and as many children, equal one by one. -/
protected def beq [BEq α] : Tree α → Tree α → Bool
  | node v cs, node w ds => v == w && beqAll cs ds

/-- Lists of trees of one length, equal one by one. -/
def beqAll [BEq α] : List (Tree α) → List (Tree α) → Bool
  | [], [] => true
  | c :: cs, d :: ds => c.beq d && beqAll cs ds
  | _, _ => false

end

instance [BEq α] : BEq (Tree α) := ⟨Tree.beq⟩

theorem beq_def [BEq α] (t u : Tree α) : (t == u) = t.beq u := rfl

/-- Two trees are equal by `==` when they are of one shape and their values are equal by `==`. -/
theorem beq_node [BEq α] (v w : α) (cs ds : List (Tree α)) :
    (node v cs == node w ds) = (v == w && beqAll cs ds) := by
  rw [beq_def, Tree.beq]

/-- If a function tells which values are equal by `==`, then so does its map for trees. -/
theorem beq_iff_map_eq [BEq α] {f : α → β} (hf : ∀ v w, (v == w) = true ↔ f v = f w)
    (t u : Tree α) : (t == u) = true ↔ t.map f = u.map f := by
  induction t generalizing u with
  | node v cs ih =>
    obtain ⟨w, ds⟩ := u
    have hall : beqAll cs ds = true ↔ cs.map (map f) = ds.map (map f) := by
      induction cs generalizing ds with
      | nil => cases ds <;> simp [beqAll]
      | cons c cs ihcs =>
        cases ds with
        | nil => simp [beqAll]
        | cons d ds =>
          rw [beqAll, Bool.and_eq_true, ihcs (fun x hx => ih x (List.mem_cons_of_mem c hx)),
            ← beq_def, ih c (List.mem_cons_self ..), List.map_cons, List.map_cons, List.cons.injEq]
    rw [beq_node, Bool.and_eq_true, hall, hf, map_node, map_node, node.injEq]

theorem beq_iff [BEq α] [LawfulBEq α] (t u : Tree α) : (t == u) = true ↔ t = u := by
  rw [beq_iff_map_eq (f := id) (fun _ _ => beq_iff_eq), map_id, map_id]

instance [BEq α] [LawfulBEq α] : LawfulBEq (Tree α) where
  eq_of_beq h := (beq_iff _ _).mp h
  rfl := (beq_iff _ _).mpr rfl

instance [DecidableEq α] : DecidableEq (Tree α) := fun t u =>
  decidable_of_iff ((t == u) = true) (beq_iff t u)

/-! ## All nodes in preorder -/

mutual

/-- All nodes, each as the tree below it: the root, then the nodes below its first child, then
those below its second child, and so on. -/
def subtrees : Tree α → List (Tree α)
  | node v cs => node v cs :: subtreesAll cs

/-- All nodes of a list of trees. -/
def subtreesAll : List (Tree α) → List (Tree α)
  | [] => []
  | c :: cs => c.subtrees ++ subtreesAll cs

end

theorem subtreesAll_eq_flatMap (cs : List (Tree α)) : subtreesAll cs = cs.flatMap subtrees := by
  induction cs with
  | nil => rfl
  | cons c cs ih => simp [subtreesAll, ih]

theorem subtrees_node (v : α) (cs : List (Tree α)) :
    (node v cs).subtrees = node v cs :: cs.flatMap subtrees := by
  rw [subtrees, subtreesAll_eq_flatMap]

/-- The values of all nodes in preorder. -/
def values (t : Tree α) : List α := t.subtrees.map value

theorem values_node (v : α) (cs : List (Tree α)) :
    (node v cs).values = v :: cs.flatMap values := by
  rw [values, subtrees_node, List.map_cons, List.map_flatMap]
  rfl

theorem length_subtrees (t : Tree α) : t.subtrees.length = t.size := by
  induction t with
  | node v cs ih =>
    have hall : (cs.flatMap subtrees).length = cs.foldr (fun c n => c.size + n) 0 := by
      induction cs with
      | nil => rfl
      | cons c cs ihcs =>
        rw [List.flatMap_cons, List.length_append, ih c (List.mem_cons_self ..),
          ihcs fun d hd => ih d (List.mem_cons_of_mem c hd), List.foldr_cons]
    rw [subtrees_node, size_node, List.length_cons, hall]
    omega

end Tree

end TreeText
