import TreeText.Command.Basic
import TreeText.Expression.Evaluate
import TreeText.Expression.Rendering
import TreeText.Tree.Hash
import TreeText.Tree.Layout
import TreeText.Tree.Parse

/-!
# What the commands compute

Each command on trees and expressions is a function from texts to a result or the first error.

Results:
* `compareTexts_eq_ok_iff`: two texts can be compared exactly if both hold trees.
-/

namespace TreeText

/-- The canonical form of the tree that a text holds. -/
def normalizeText (text : String) : Except Error String :=
  (Tree.parse text).map Tree.canonical

/-- A tree in a layout, with `width` spaces for each level if it is indented. -/
def Tree.inLayout (layout : Layout) (width : Nat) (t : Tree String) : String :=
  match layout with
  | .drawn => t.drawn
  | .indented => t.indented width

/-- The tree that a text holds, in a layout. -/
def displayText (text : String) (layout : Layout) (width : Nat) : Except Error String :=
  (Tree.parse text).map (Tree.inLayout layout width)

/-- What a comparison of two trees finds. -/
structure Comparison where
  equal : Bool
  leftHash : UInt64
  rightHash : UInt64
  deriving DecidableEq, Repr

/-- The comparison of two trees. -/
def Comparison.ofTrees (l r : Tree String) : Comparison := ⟨l == r, l.hashCode, r.hashCode⟩

/-- The comparison of the trees that two texts hold; the left text is read first. -/
def compareTexts (left right : String) : Except Error Comparison :=
  match Tree.parse left with
  | .error e => .error e
  | .ok l =>
    match Tree.parse right with
    | .error e => .error e
    | .ok r => .ok (.ofTrees l r)

/-- The value of the expression that a text holds. -/
def evaluateText (text : String) : Except Error Int64 :=
  match Expression.parse text with
  | .error e => .error e
  | .ok e => e.evaluate

/-- The rendering of the expression that a text holds. -/
def renderText (text : String) : Except Error String :=
  (Expression.parse text).map Expression.rendered

theorem compareTexts_eq_ok_iff {left right : String} {c : Comparison} :
    compareTexts left right = .ok c
      ↔ ∃ l r, Tree.parse left = .ok l ∧ Tree.parse right = .ok r ∧ .ofTrees l r = c := by
  unfold compareTexts
  cases Tree.parse left <;> cases Tree.parse right <;> simp

end TreeText
