import TreeText.Tree.Basic

/-!
# Layouts with one line per node

Both layouts write the nodes in preorder, one line each. The indented layout puts a number of spaces
for each level in front of a value. The drawn layout puts, for each level below the root, a rail: it
goes on past the line if the node at that level has later siblings. Values are written as they are,
also when they hold line breaks.

Results:
* `Tree.outline_node`, `Tree.railed_node`: the lines of a node come before those of its children.
-/

namespace TreeText

namespace Tree

universe u

variable {α : Type u}

/-! ## The indented layout -/

mutual

/-- The values in preorder, each with the depth of its node, where `depth` is that of the root. -/
def outline (depth : Nat) : Tree α → List (Nat × α)
  | node v cs => (depth, v) :: outlineAll (depth + 1) cs

/-- The values of a list of trees whose roots have one depth. -/
def outlineAll (depth : Nat) : List (Tree α) → List (Nat × α)
  | [] => []
  | c :: cs => c.outline depth ++ outlineAll depth cs

end

/-- A line of the indented layout. -/
def indentedLine [ToString α] (width : Nat) (line : Nat × α) : String :=
  String.ofList (List.replicate (line.1 * width) ' ') ++ toString line.2 ++ "\n"

/-- One value per line, behind `width` spaces for each level of depth. -/
def indented [ToString α] (width : Nat) (t : Tree α) : String :=
  String.join ((t.outline 0).map (indentedLine width))

/-! ## The drawn layout -/

mutual

/-- The values in preorder. Each comes with one mark for every node on the way down to its own, the
root left out and its own node included: whether that node has later siblings. `marks` are those of
the root. -/
def railed (marks : List Bool) : Tree α → List (List Bool × α)
  | node v cs => (marks, v) :: railedAll marks cs

/-- The values below the children of a node with the given marks. -/
def railedAll (marks : List Bool) : List (Tree α) → List (List Bool × α)
  | [] => []
  | c :: cs => c.railed (marks ++ [!cs.isEmpty]) ++ railedAll marks cs

end

/-- What stands in front of a value: a rail or a gap for each level above it, and a branch. -/
def rail : List Bool → String
  | [] => ""
  | [later] => if later then "├── " else "└── "
  | later :: marks => (if later then "│   " else "    ") ++ rail marks

/-- A line of the drawn layout. -/
def drawnLine [ToString α] (line : List Bool × α) : String :=
  rail line.1 ++ toString line.2 ++ "\n"

/-- One value per line, behind the rails that join it to its parent. -/
def drawn [ToString α] (t : Tree α) : String :=
  String.join ((t.railed []).map drawnLine)

/-! ## Laws -/

theorem outlineAll_eq_flatMap (depth : Nat) (cs : List (Tree α)) :
    outlineAll depth cs = cs.flatMap (outline depth) := by
  induction cs with
  | nil => rfl
  | cons c cs ih => simp [outlineAll, ih]

theorem outline_node (depth : Nat) (v : α) (cs : List (Tree α)) :
    (node v cs).outline depth = (depth, v) :: cs.flatMap (outline (depth + 1)) := by
  rw [outline, outlineAll_eq_flatMap]

theorem railed_node (marks : List Bool) (v : α) (cs : List (Tree α)) :
    (node v cs).railed marks = (marks, v) :: railedAll marks cs := by
  rw [railed]

end Tree

end TreeText
