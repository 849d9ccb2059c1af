import Mathlib.Algebra.Group.Nat.Defs
import TreeText.Proofs.Expression.Validity
import TreeText.Proofs.Tree.RoundTrip

/-!
# Expressions through their texts

An expression is made from a text or from a tree. Both ways check the same rules, so the canonical
form of a tree gives what the tree gives, and the same error if it is refused. The rules leave no
room for values that could not be written, so every expression that keeps to the limit can be
written and read again.

Results:
* `Tree.isExpressionNode_iff`: the rules for one node.
* `Tree.Arithmetic.isClean`: the values of an expression are clean.
* `Expression.parse_canonical_of_isClean`: the canonical form of a tree is accepted, or refused, as
  the tree is.
* `Expression.parse_canonical_eq_ofTree`: this, which trees are accepted, and what expressions keep.
-/

namespace TreeText

namespace Tree

/-! ## The rules for one node -/

/-- The rules for one node: a sum or a product has two or more operands, a difference or a quotient
two, and any other node is a leaf with a decimal numeral of at most 63 bits. -/
def KeepsRules (s : Tree String) : Prop :=
  (s.value = "+" ∨ s.value = "*") ∧ 2 ≤ s.arity ∨
    (s.value = "-" ∨ s.value = "/") ∧ s.arity = 2 ∨
      (s.value ≠ "" ∧ (∀ c ∈ s.value.toList, c.isDigit = true) ∧
        Numeral.value 10 s.value.toList ≤ 2 ^ 63 - 1) ∧ s.arity = 0

theorem isExpressionNode_iff {s : Tree String} :
    isExpressionNode s.value s.arity = true ↔ s.KeepsRules := by
  cases hop : Operator.ofSymbol? s.value with
  | some op =>
    have hvalue := Operator.ofSymbol?_eq_some_iff.mp hop
    rw [isExpressionNode_application hop, KeepsRules, hvalue]
    cases op <;> simp [Operator.accepts, Operator.symbol]
  | none =>
    have hvalue (op : Operator) : s.value ≠ op.symbol := fun h =>
      Option.some_ne_none op ((Operator.ofSymbol?_eq_some_iff.mpr h).symm.trans hop)
    have hadd := hvalue .add
    have hsubtract := hvalue .subtract
    have hmultiply := hvalue .multiply
    have hdivide := hvalue .divide
    simp only [Operator.symbol] at hadd hsubtract hmultiply hdivide
    simp only [isExpressionNode, hop, Bool.and_eq_true, isSome_literal?_iff, beq_iff_eq, KeepsRules,
      hadd, hsubtract, hmultiply, hdivide, maxInt64]
    simp

instance (s : Tree String) : Decidable s.KeepsRules := decidable_of_iff _ isExpressionNode_iff

/-- The values of an expression are clean. -/
theorem Arithmetic.isClean {t : Tree String} (h : t.Arithmetic) : t.IsClean := by
  induction h with
  | literal value => exact isClean_node.mpr ⟨isClean_of_literal? value, by simp⟩
  | @application v op cs symbol _ _ ih =>
    obtain rfl := Operator.ofSymbol?_eq_some_iff.mp symbol
    exact isClean_node.mpr ⟨op.isClean_symbol, ih⟩

end Tree

namespace Expression

/-! ## From texts and from trees -/

theorem parse_canonical_of_isClean {t : Tree String} (hclean : t.IsClean)
    (hheight : t.height ≤ maxDepth) : parse t.canonical = ofTree t := by
  have hparse : Tree.parse t.canonical = .ok t :=
    Tree.parse_canonical_eq_ok_iff.mpr ⟨hclean, hheight⟩
  rw [parse, hparse]
  by_cases h : t.isExpression = true
  · simp only [ofTree, dif_pos h]
  · simp only [ofTree, dif_neg h]

theorem exists_ofTree_eq_ok_iff {t : Tree String} :
    (∃ e, ofTree t = .ok e) ↔ ∀ s ∈ t.subtrees, s.KeepsRules := by
  simp only [← Tree.isExpressionNode_iff, ← Tree.isExpression_iff_forall]
  constructor
  · rintro ⟨e, he⟩
    exact (ofTree_eq_ok_iff.mp he).1
  · intro h
    exact ⟨⟨t, h⟩, ofTree_eq_ok_iff.mpr ⟨h, rfl⟩⟩

/-- An expression that keeps to the limit is read from its canonical form. -/
theorem parse_canonical_tree {e : Expression} (h : e.tree.height ≤ maxDepth) :
    parse e.tree.canonical = .ok e := by
  rw [parse_canonical_of_isClean e.arithmetic.isClean h]
  exact ofTree_eq_ok_iff.mpr ⟨e.valid, rfl⟩

/-- **From a text or from a tree.** If the values of a tree are clean and it keeps to the limit, its
canonical form gives the expression that the tree gives, or the same error. A tree is accepted, and
kept as it is, if and only if each of its nodes keeps the rules, and then its values are clean. So
the canonical form of an expression that keeps to the limit gives this expression, with its value
and its rendering. -/
theorem parse_canonical_eq_ofTree :
    (∀ t : Tree String, t.IsClean → t.height ≤ maxDepth → parse t.canonical = ofTree t) ∧
    (∀ t : Tree String,
      ((∃ e, ofTree t = .ok e) ↔ ∀ s ∈ t.subtrees, s.KeepsRules) ∧
        (∀ e, ofTree t = .ok e → e.tree = t) ∧
        ((∀ s ∈ t.subtrees, s.KeepsRules) → t.IsClean)) ∧
    ∀ e : Expression, e.tree.height ≤ maxDepth →
      parse e.tree.canonical = .ok e ∧ evaluateText e.tree.canonical = e.evaluate ∧
        renderText e.tree.canonical = .ok e.rendered := by
  refine ⟨fun t hclean hheight => parse_canonical_of_isClean hclean hheight,
    fun t => ⟨exists_ofTree_eq_ok_iff, fun e he => (ofTree_eq_ok_iff.mp he).2, fun h => ?_⟩,
    fun e hheight => ?_⟩
  · obtain ⟨e, he⟩ := exists_ofTree_eq_ok_iff.mpr h
    rw [← (ofTree_eq_ok_iff.mp he).2]
    exact e.arithmetic.isClean
  · have hparse := parse_canonical_tree hheight
    exact ⟨hparse, by rw [evaluateText, hparse], by rw [renderText, hparse]; rfl⟩

open TreeText.Tree in
/-- A product with a leading zero in an operand, and a numeral that is no leaf. -/
theorem parse_canonical_eq_ofTree_examples :
    (∃ e : Expression, e.tree = node "*" [leaf "007", node "-" [leaf "10", leaf "8"]] ∧
        e.tree.height ≤ maxDepth ∧ parse "* (007 - (10 8))" = .ok e ∧
        evaluateText "* (007 - (10 8))" = .ok 14 ∧
        renderText "* (007 - (10 8))" = .ok "(007 * (10 - 8))") ∧
      (node "5" [leaf "6"]).IsClean ∧ (node "5" [leaf "6"]).height ≤ maxDepth ∧
      parse "5 (6)" = .error (.invalidExpression "5 (6)") := by
  have hclean : (node "5" [leaf "6"]).IsClean := by decide
  have hheight : (node "5" [leaf "6"]).height ≤ maxDepth := by decide
  obtain ⟨e, he⟩ := (parse_canonical_eq_ofTree.2.1
    (node "*" [leaf "007", node "-" [leaf "10", leaf "8"]])).1.mpr (by decide)
  have htree := (parse_canonical_eq_ofTree.2.1 _).2.1 e he
  have hlow : e.tree.height ≤ maxDepth := by rw [htree]; decide
  obtain ⟨hparse, hvalue, hrendered⟩ := parse_canonical_eq_ofTree.2.2 e hlow
  rw [htree] at hparse hvalue hrendered
  refine ⟨⟨e, htree, hlow, hparse, hvalue.trans ?_, hrendered.trans ?_⟩, hclean, hheight,
    (parse_canonical_eq_ofTree.1 _ hclean hheight).trans rfl⟩
  · rw [evaluate, htree]
    rfl
  · rw [rendered, htree]
    exact congrArg _ (by decide)

end Expression

end TreeText
