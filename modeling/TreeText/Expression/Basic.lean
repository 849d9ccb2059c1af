import TreeText.Expression.Operator
import TreeText.Numeral
import TreeText.Tree.Canonical
import TreeText.Tree.Parse

/-!
# Arithmetic expressions

An expression is a tree: an operator above its operands, and literals at the leaves. A literal is an
unsigned decimal numeral that fits in a signed 64-bit integer. Which trees are expressions is
decided once, and an `Expression` carries the outcome with it.

Results:
* `Tree.isExpression_node`: a tree is an expression if its root is in order and its children are
  expressions.
* `Expression.ofTree_eq_ok_iff`: exactly those trees are accepted, and they are kept as they are.
-/

namespace TreeText

/-- The number that a literal stands for. -/
def literal? (text : String) : Option Int64 :=
  match Numeral.natural? text with
  | some n => if n ≤ maxInt64 then some (Int64.ofNat n) else none
  | none => none

namespace Tree

/-- Whether a node with the value `v` and `n` children is in order. -/
def isExpressionNode (v : String) (n : Nat) : Bool :=
  match Operator.ofSymbol? v with
  | some op => op.accepts n
  | none => (literal? v).isSome && n == 0

/-- Whether a tree is an arithmetic expression. -/
def isExpression : Tree String → Bool :=
  fold fun v oks => isExpressionNode v oks.length && oks.all id

theorem isExpression_node (v : String) (cs : List (Tree String)) :
    (node v cs).isExpression = (isExpressionNode v cs.length && cs.all isExpression) := by
  rw [isExpression, fold_node, List.length_map, List.all_map]; rfl

end Tree

/-- A tree that is an arithmetic expression. -/
structure Expression where
  tree : Tree String
  valid : tree.isExpression = true

namespace Expression

theorem ext {a b : Expression} (h : a.tree = b.tree) : a = b := by
  cases a; cases b; cases h; rfl

/-- The expression that a tree is. -/
def ofTree (t : Tree String) : Except Error Expression :=
  if h : t.isExpression = true then .ok ⟨t, h⟩ else .error (.invalidExpression t.canonical)

/-- The expression that a text holds. The error about a tree that is none gives the text as it was
written. -/
def parse (text : String) : Except Error Expression :=
  match Tree.parse text with
  | .error e => .error e
  | .ok t =>
    match ofTree t with
    | .error _ => .error (.invalidExpression text)
    | .ok e => .ok e

theorem ofTree_eq_ok_iff {t : Tree String} {e : Expression} :
    ofTree t = .ok e ↔ t.isExpression = true ∧ e.tree = t := by
  constructor
  · intro h
    unfold ofTree at h
    split at h
    · cases h; exact ⟨‹_›, rfl⟩
    · nomatch h
  · rintro ⟨h, rfl⟩
    rw [ofTree, dif_pos h]

end Expression

end TreeText
