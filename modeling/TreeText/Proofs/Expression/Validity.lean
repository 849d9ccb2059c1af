import TreeText.Expression.Basic
import TreeText.Proofs.Token.Spelling

/-!
# The trees that are expressions

Whether a tree is an expression is checked from the leaves up. The same trees are described by how
they are built: from literals, by applying operators to as many operands as they take. Proofs about
expressions are inductions on how the tree is built (`Tree.Arithmetic`).

Results:
* `literal?_eq_some_iff`: the texts that are literals, and their numbers.
* `literal?_toString`: the decimal text of a number is a literal for it, unless it is negative.
* `Tree.isExpression_iff_arithmetic`: the check finds the trees that are built in this way.
* `Tree.isExpression_iff_forall`: it is a condition on each node by itself.
* `Tree.Arithmetic.of_mem_subtrees`: the nodes of an expression are expressions.
* `Expression.parse_eq_ok_iff_tree`, `Expression.parse_eq_error_iff`: what a text gives, by the tree
  that it holds.
-/

namespace TreeText

namespace Operator

theorem ofSymbol?_eq_some_iff {s : String} {op : Operator} :
    ofSymbol? s = some op ↔ s = op.symbol := by
  constructor
  · intro h
    exact (symbol_of_ofSymbol? h).symm
  · rintro rfl
    exact ofSymbol?_symbol op

/-- The symbol of an operator is one character, and not a digit. -/
theorem exists_toList_symbol (op : Operator) :
    ∃ c, op.symbol.toList = [c] ∧ c.isDigit = false := by
  cases op with
  | add => exact ⟨'+', rfl, rfl⟩
  | subtract => exact ⟨'-', rfl, rfl⟩
  | multiply => exact ⟨'*', rfl, rfl⟩
  | divide => exact ⟨'/', rfl, rfl⟩

/-- An operator is applied to two operands at least. -/
theorem exists_operands {α : Type} {op : Operator} {cs : List α}
    (h : op.accepts cs.length = true) : ∃ c d ds, cs = c :: d :: ds := by
  have htwo := two_le_of_accepts h
  match cs, htwo with
  | c :: d :: ds, _ => exact ⟨c, d, ds, rfl⟩

theorem isClean_symbol (op : Operator) : IsClean op.symbol := by
  cases op <;> decide

end Operator

/-! ## Literals -/

theorem literal?_eq_some_iff {text : String} {n : Int64} :
    literal? text = some n ↔
      text ≠ "" ∧ (∀ c ∈ text.toList, c.isDigit = true) ∧
        Numeral.value 10 text.toList ≤ maxInt64 ∧ n = Int64.ofNat (Numeral.value 10 text.toList) := by
  unfold literal?
  cases h : Numeral.natural? text with
  | none =>
    have hnone : ¬ (text ≠ "" ∧ ∀ c ∈ text.toList, c.isDigit = true) := by
      rintro ⟨hne, hdigits⟩
      rw [Numeral.natural?_eq_some_iff.mpr ⟨hne, hdigits, rfl⟩] at h
      nomatch h
    simp only [reduceCtorEq, false_iff]
    rintro ⟨hne, hdigits, -⟩
    exact hnone ⟨hne, hdigits⟩
  | some m =>
    obtain ⟨hne, hdigits, rfl⟩ := Numeral.natural?_eq_some_iff.mp h
    by_cases hle : Numeral.value 10 text.toList ≤ maxInt64
    · simp only [if_pos hle, Option.some.injEq]
      exact ⟨fun hn => ⟨hne, hdigits, hle, hn.symm⟩, fun ⟨_, _, _, hn⟩ => hn.symm⟩
    · simp only [if_neg hle, reduceCtorEq, false_iff]
      rintro ⟨-, -, hle', -⟩
      exact hle hle'

theorem isSome_literal?_iff {text : String} :
    (literal? text).isSome = true ↔
      text ≠ "" ∧ (∀ c ∈ text.toList, c.isDigit = true) ∧
        Numeral.value 10 text.toList ≤ maxInt64 := by
  simp [Option.isSome_iff_exists, literal?_eq_some_iff]

/-- A literal stands for its decimal value. -/
theorem toInt_of_literal? {text : String} {n : Int64} (h : literal? text = some n) :
    n.toInt = Numeral.value 10 text.toList := by
  obtain ⟨-, -, hle, rfl⟩ := literal?_eq_some_iff.mp h
  exact toInt_ofNat_of_le hle

/-- The decimal text of a number that fits is a literal for this number. -/
theorem literal?_repr {n : Nat} (h : n ≤ maxInt64) : literal? n.repr = some (Int64.ofNat n) := by
  rw [literal?, Numeral.natural?_repr]
  exact if_pos h

theorem literal?_toString {n : Int64} (h : 0 ≤ n) : literal? (toString n) = some n := by
  obtain ⟨m, hm⟩ := Int.eq_ofNat_of_zero_le (Int64.le_iff_toInt_le.mp h)
  have hlt := n.toInt_lt
  have hle : m ≤ maxInt64 := by
    unfold maxInt64
    omega
  have htext : toString n = m.repr := by
    show n.toInt.repr = m.repr
    rw [hm]
    rfl
  have hnumber : Int64.ofNat m = n := by
    apply Int64.toInt_inj.mp
    rw [hm]
    exact toInt_ofNat_of_le hle
  rw [htext, literal?_repr hle, hnumber]

theorem isClean_of_literal? {text : String} {n : Int64} (h : literal? text = some n) :
    IsClean text := by
  obtain ⟨hne, hdigits, -⟩ := literal?_eq_some_iff.mp h
  exact isClean_of_digits hne hdigits

/-- No literal is the symbol of an operator. -/
theorem ofSymbol?_of_literal? {text : String} {n : Int64} (h : literal? text = some n) :
    Operator.ofSymbol? text = none := by
  cases hop : Operator.ofSymbol? text with
  | none => rfl
  | some op =>
    obtain rfl := Operator.ofSymbol?_eq_some_iff.mp hop
    obtain ⟨c, hc, hdigit⟩ := op.exists_toList_symbol
    have := (literal?_eq_some_iff.mp h).2.1 c (by simp [hc])
    rw [hdigit] at this
    nomatch this

namespace Tree

/-! ## How expressions are built -/

/-- The trees that are built from literals by applying operators to operands. -/
inductive Arithmetic : Tree String → Prop
  | literal {v : String} {n : Int64} (value : literal? v = some n) : Arithmetic (node v [])
  | application {v : String} {op : Operator} {cs : List (Tree String)}
      (symbol : Operator.ofSymbol? v = some op) (count : op.accepts cs.length = true)
      (operands : ∀ c ∈ cs, Arithmetic c) : Arithmetic (node v cs)

/-- A node of an expression is a literal, or an application to two operands at least. -/
theorem Arithmetic.literal_or_application {t : Tree String} (h : t.Arithmetic) :
    (∃ n, literal? t.value = some n) ∨
      ∃ op, Operator.ofSymbol? t.value = some op ∧ 2 ≤ t.arity := by
  cases h with
  | literal value => exact .inl ⟨_, value⟩
  | application symbol count _ => exact .inr ⟨_, symbol, Operator.two_le_of_accepts count⟩

theorem isExpressionNode_literal {v : String} {n : Int64} (h : literal? v = some n) :
    isExpressionNode v 0 = true := by
  simp [isExpressionNode, ofSymbol?_of_literal? h, h]

theorem isExpressionNode_application {v : String} {op : Operator} (h : Operator.ofSymbol? v = some op)
    (n : Nat) : isExpressionNode v n = op.accepts n := by
  simp [isExpressionNode, h]

theorem Arithmetic.isExpression {t : Tree String} (h : t.Arithmetic) : t.isExpression = true := by
  induction h with
  | literal value => rw [isExpression_node, List.length_nil, isExpressionNode_literal value]; rfl
  | application symbol count operands ih =>
    rw [isExpression_node, isExpressionNode_application symbol, count, Bool.true_and,
      List.all_eq_true]
    exact ih

theorem arithmetic_of_isExpression {t : Tree String} (h : t.isExpression = true) : t.Arithmetic := by
  induction t with
  | node v cs ih =>
    rw [isExpression_node, Bool.and_eq_true, List.all_eq_true] at h
    obtain ⟨hnode, hcs⟩ := h
    cases hop : Operator.ofSymbol? v with
    | some op =>
      rw [isExpressionNode_application hop] at hnode
      exact .application hop hnode fun c hc => ih c hc (hcs c hc)
    | none =>
      simp only [isExpressionNode, hop, Bool.and_eq_true, beq_iff_eq] at hnode
      obtain ⟨hliteral, hlength⟩ := hnode
      obtain rfl := List.length_eq_zero_iff.mp hlength
      obtain ⟨n, hn⟩ := Option.isSome_iff_exists.mp hliteral
      exact .literal hn

theorem isExpression_iff_arithmetic {t : Tree String} : t.isExpression = true ↔ t.Arithmetic :=
  ⟨arithmetic_of_isExpression, Arithmetic.isExpression⟩

/-! ## Node by node -/

/-- A condition on all nodes holds if it holds of the root and of the nodes below each child. -/
theorem forall_mem_subtrees_node {p : Tree String → Prop} {v : String} {cs : List (Tree String)} :
    (∀ s ∈ (node v cs).subtrees, p s) ↔ p (node v cs) ∧ ∀ c ∈ cs, ∀ s ∈ c.subtrees, p s := by
  rw [subtrees_node, List.forall_mem_cons]
  simp only [List.mem_flatMap]
  constructor
  · rintro ⟨hroot, hrest⟩
    exact ⟨hroot, fun c hc s hs => hrest s ⟨c, hc, hs⟩⟩
  · rintro ⟨hroot, hrest⟩
    refine ⟨hroot, ?_⟩
    rintro s ⟨c, hc, hs⟩
    exact hrest c hc s hs

theorem isExpression_iff_forall {t : Tree String} :
    t.isExpression = true ↔ ∀ s ∈ t.subtrees, isExpressionNode s.value s.arity = true := by
  induction t with
  | node v cs ih =>
    rw [isExpression_node, Bool.and_eq_true, List.all_eq_true, forall_mem_subtrees_node]
    constructor
    · rintro ⟨hnode, hcs⟩
      exact ⟨hnode, fun c hc => (ih c hc).mp (hcs c hc)⟩
    · rintro ⟨hnode, hcs⟩
      exact ⟨hnode, fun c hc => (ih c hc).mpr (hcs c hc)⟩

/-- Every node of an expression is an expression. -/
theorem Arithmetic.of_mem_subtrees {t s : Tree String} (h : t.Arithmetic) (hs : s ∈ t.subtrees) :
    s.Arithmetic := by
  induction h with
  | literal value =>
    obtain rfl := List.mem_singleton.mp hs
    exact .literal value
  | application symbol count operands ih =>
    rw [subtrees_node] at hs
    rcases List.mem_cons.mp hs with rfl | hs
    · exact .application symbol count operands
    · obtain ⟨c, hc, hs⟩ := List.mem_flatMap.mp hs
      exact ih c hc hs

end Tree

namespace Expression

theorem arithmetic (e : Expression) : e.tree.Arithmetic :=
  Tree.arithmetic_of_isExpression e.valid

/-! ## Texts -/

/-- A text holds the expression `e` if it holds the tree of `e`. -/
theorem parse_eq_ok_iff_tree {text : String} {e : Expression} :
    parse text = .ok e ↔ Tree.parse text = .ok e.tree := by
  rw [parse]
  cases hparse : Tree.parse text with
  | error e' => simp
  | ok t =>
    cases ht : t.isExpression with
    | true =>
      have hok : ofTree t = .ok ⟨t, ht⟩ := dif_pos ht
      simp only [hok, Except.ok.injEq]
      exact ⟨fun h => h ▸ rfl, fun h => ext h⟩
    | false =>
      have herror : ofTree t = .error (.invalidExpression t.canonical) := dif_neg (by simp [ht])
      simp only [herror, Except.ok.injEq, reduceCtorEq, false_iff]
      rintro rfl
      exact Bool.false_ne_true (ht.symm.trans e.valid)

/-- A text without an expression has the error of the tree reader, or holds a tree that is no
expression. -/
theorem parse_eq_error_iff {text : String} {e : Error} :
    parse text = .error e ↔ Tree.parse text = .error e ∨
      e = .invalidExpression text ∧ ∃ t, Tree.parse text = .ok t ∧ t.isExpression = false := by
  rw [parse]
  cases hparse : Tree.parse text with
  | error e' => simp
  | ok t =>
    cases ht : t.isExpression with
    | true =>
      have hok : ofTree t = .ok ⟨t, ht⟩ := dif_pos ht
      simp [hok, ht]
    | false =>
      have herror : ofTree t = .error (.invalidExpression t.canonical) := dif_neg (by simp [ht])
      simpa [herror, ht] using eq_comm

end Expression

end TreeText
