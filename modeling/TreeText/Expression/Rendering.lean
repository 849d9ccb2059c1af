import TreeText.Expression.Basic

/-!
# Operators between their operands

An expression is rendered with each operator between its operands and with parentheses around every
application of an operator: `(5 + 10 + ((15 * 20) - 25))`. Literals are written as they were read.

Results:
* `Tree.rendered_literal`, `Tree.rendered_application`: the rendering of a literal and of an
  application.
-/

namespace TreeText

namespace Tree

/-- The rendering of a tree; a value that is no operator stands alone. -/
def rendered : Tree String → String :=
  fold fun v texts =>
    match Operator.ofSymbol? v with
    | some op => "(" ++ (" " ++ op.symbol ++ " ").intercalate texts ++ ")"
    | none => v

theorem rendered_literal {v : String} (h : Operator.ofSymbol? v = none) (cs : List (Tree String)) :
    (node v cs).rendered = v := by
  rw [rendered, fold_node, h]

theorem rendered_application {v : String} {op : Operator} (h : Operator.ofSymbol? v = some op)
    (cs : List (Tree String)) :
    (node v cs).rendered = "(" ++ (" " ++ op.symbol ++ " ").intercalate (cs.map rendered) ++ ")" := by
  rw [rendered, fold_node, h]

end Tree

/-- The rendering of an expression. -/
def Expression.rendered (e : Expression) : String := e.tree.rendered

instance : ToString Expression := ⟨Expression.rendered⟩

end TreeText
