import TreeText.Proofs.Expression.Exact
import TreeText.Proofs.Tree.FirstFault

/-!
# How commands fail

Each kind of error comes from one place: syntax errors from reading trees, invalid expressions from
the rules of expressions, and faults of arithmetic from evaluations. An evaluation never meets a node
that breaks the rules, as all nodes of an expression keep them. So the exit code of a failure tells
whether a text holds an expression.

Results:
* `Tree.isSyntax_of_parse`: reading a tree fails with syntax errors only.
* `exitCode_of_parse`, `exitCode_of_evaluate`: the exit code tells whether there is an expression.
* `failures_partition`: the failures of all commands on trees and expressions, by their causes.
-/

namespace TreeText

/-! ## Errors by their sources -/

theorem Tree.isSyntax_of_parse {text : String} {e : Error} (h : parse text = .error e) :
    e.isSyntax = true := by
  rw [parse_eq_ofTokens] at h
  rcases hasOutcome (tokenize text) with
    ⟨t, hok⟩ | ⟨hend, -⟩ | ⟨before, token, rest, htokens, -, hfault⟩
  · rw [hok] at h
    nomatch h
  · rw [hend] at h
    cases h
    rfl
  · rw [htokens, hfault rest] at h
    cases h
    rcases faultBehind_eq_or before token with h | h <;> rw [h] <;> rfl

theorem Expression.not_isArithmetic_of_parse {text : String} {e : Error}
    (h : parse text = .error e) : e.isArithmetic = false := by
  rcases parse_eq_error_iff.mp h with hparse | ⟨rfl, -⟩
  · have hkind := Tree.isSyntax_of_parse hparse
    simpa [hkind] using e.not_isSyntax_and_isArithmetic
  · rfl

/-! ## Exit codes -/

theorem Failure.exitCode_tree (e : Error) :
    (tree e).exitCode = if e.isArithmetic = true then 70 else 65 := rfl

theorem exitCode_of_parse {text : String} {e : Error} (h : Expression.parse text = .error e) :
    (Failure.tree e).exitCode = 65 := by
  rw [Failure.exitCode_tree, Expression.not_isArithmetic_of_parse h]
  rfl

theorem exitCode_of_evaluate {x : Expression} {e : Error} (h : x.evaluate = .error e) :
    (Failure.tree e).exitCode = 70 := by
  rcases x.arithmetic.fault_of_evaluate h with rfl | rfl <;> rfl

theorem exitCode_of_isSyntax {e : Error} (h : e.isSyntax = true) :
    (Failure.tree e).exitCode = 65 := by
  have harithmetic : e.isArithmetic = false := by
    simpa [h] using e.not_isSyntax_and_isArithmetic
  rw [Failure.exitCode_tree, harithmetic]
  rfl

/-! ## Commands -/

theorem evaluateText_eq_error_iff {text : String} {e : Error} :
    evaluateText text = .error e ↔ Expression.parse text = .error e ∨
      ∃ x, Expression.parse text = .ok x ∧ x.evaluate = .error e := by
  rw [evaluateText]
  cases Expression.parse text <;> simp

theorem renderText_eq_error_iff {text : String} {e : Error} :
    renderText text = .error e ↔ Expression.parse text = .error e := by
  rw [renderText]
  cases Expression.parse text <;> simp [Except.map]

theorem exists_renderText_eq_ok_iff {text : String} :
    (∃ r, renderText text = .ok r) ↔ ∃ x, Expression.parse text = .ok x := by
  rw [renderText]
  cases Expression.parse text <;> simp [Except.map]

theorem evaluateText_fails_with_65_iff {text : String} {e : Error} :
    (evaluateText text = .error e ∧ (Failure.tree e).exitCode = 65) ↔ renderText text = .error e := by
  rw [evaluateText_eq_error_iff, renderText_eq_error_iff]
  constructor
  · rintro ⟨h | ⟨x, -, hfault⟩, hcode⟩
    · exact h
    · rw [exitCode_of_evaluate hfault] at hcode
      exact absurd hcode (by decide)
  · intro h
    exact ⟨.inl h, exitCode_of_parse h⟩

theorem evaluateText_fails_with_70_iff {text : String} {e : Error} :
    (evaluateText text = .error e ∧ (Failure.tree e).exitCode = 70) ↔
      ∃ x, Expression.parse text = .ok x ∧ x.evaluate = .error e := by
  rw [evaluateText_eq_error_iff]
  constructor
  · rintro ⟨h | h, hcode⟩
    · rw [exitCode_of_parse h] at hcode
      exact absurd hcode (by decide)
    · exact h
  · rintro ⟨x, hx, hfault⟩
    exact ⟨.inr ⟨x, hx, hfault⟩, exitCode_of_evaluate hfault⟩

theorem isSyntax_of_map_parse {α : Type} {f : Tree String → α} {text : String} {e : Error}
    (h : (Tree.parse text).map f = .error e) : e.isSyntax = true := by
  cases hparse : Tree.parse text with
  | error e' =>
    rw [hparse] at h
    cases h
    exact Tree.isSyntax_of_parse hparse
  | ok t =>
    rw [hparse] at h
    nomatch h

theorem isSyntax_of_compareTexts {left right : String} {e : Error}
    (h : compareTexts left right = .error e) : e.isSyntax = true := by
  unfold compareTexts at h
  cases hleft : Tree.parse left with
  | error e' =>
    rw [hleft] at h
    cases h
    exact Tree.isSyntax_of_parse hleft
  | ok l =>
    cases hright : Tree.parse right with
    | error e' =>
      rw [hleft, hright] at h
      cases h
      exact Tree.isSyntax_of_parse hright
    | ok r =>
      rw [hleft, hright] at h
      nomatch h

/-- **How commands fail.** A text that holds no expression gives the error of the tree reader, which
is a syntax error, or is told to be an invalid expression. The evaluation of an expression, or of a
node of one, fails only with a fault of arithmetic, as each node is a literal or an application to
enough operands. So rendering succeeds exactly if there is an expression. Evaluating a text fails with
exit code 65 where rendering it fails, and with the same error; and with exit code 70 where rendering
it succeeds and the evaluation is a fault. All other commands on trees fail with syntax errors and
exit code 65. -/
theorem failures_partition :
    (∀ (text : String) (e : Error), Expression.parse text = .error e ↔
      (e.isSyntax = true ∧ Tree.parse text = .error e) ∨
        e = .invalidExpression text ∧ ∃ t, Tree.parse text = .ok t ∧ t.isExpression = false) ∧
    (∀ (x : Expression), ∀ s ∈ x.tree.subtrees,
      ((∃ n, literal? s.value = some n) ∨
        ∃ op, Operator.ofSymbol? s.value = some op ∧ 2 ≤ s.arity) ∧
      ∀ e, s.evaluate = .error e → e = .divisionByZero ∨ e = .overflow) ∧
    (∀ text : String, (∃ r, renderText text = .ok r) ↔ ∃ x, Expression.parse text = .ok x) ∧
    (∀ (text : String) (e : Error),
      (evaluateText text = .error e ∧ (Failure.tree e).exitCode = 65) ↔
        renderText text = .error e) ∧
    (∀ (text : String) (e : Error),
      (evaluateText text = .error e ∧ (Failure.tree e).exitCode = 70) ↔
        (∃ r, renderText text = .ok r) ∧
          ∃ x, Expression.parse text = .ok x ∧ x.evaluate = .error e) ∧
    (∀ (text : String) (e : Error), normalizeText text = .error e →
      e.isSyntax = true ∧ (Failure.tree e).exitCode = 65) ∧
    (∀ (text : String) (layout : Layout) (width : Nat) (e : Error),
      displayText text layout width = .error e →
        e.isSyntax = true ∧ (Failure.tree e).exitCode = 65) ∧
    ∀ (left right : String) (e : Error), compareTexts left right = .error e →
      e.isSyntax = true ∧ (Failure.tree e).exitCode = 65 := by
  refine ⟨fun text e => ?_, fun x s hs => ?_, fun text => exists_renderText_eq_ok_iff,
    fun text e => evaluateText_fails_with_65_iff, fun text e => ?_, fun text e h => ?_,
    fun text layout width e h => ?_, fun left right e h => ?_⟩
  · rw [Expression.parse_eq_error_iff]
    exact or_congr_left ⟨fun h => ⟨Tree.isSyntax_of_parse h, h⟩, And.right⟩
  · have harithmetic := x.arithmetic.of_mem_subtrees hs
    exact ⟨harithmetic.literal_or_application, fun e he => harithmetic.fault_of_evaluate he⟩
  · rw [evaluateText_fails_with_70_iff, exists_renderText_eq_ok_iff]
    exact ⟨fun ⟨x, hx, hfault⟩ => ⟨⟨x, hx⟩, x, hx, hfault⟩, And.right⟩
  · have hkind := isSyntax_of_map_parse h
    exact ⟨hkind, exitCode_of_isSyntax hkind⟩
  · have hkind := isSyntax_of_map_parse h
    exact ⟨hkind, exitCode_of_isSyntax hkind⟩
  · have hkind := isSyntax_of_compareTexts h
    exact ⟨hkind, exitCode_of_isSyntax hkind⟩

/-- A text without a tree, a tree that is no expression, and a division by zero. -/
theorem failures_partition_examples :
    (Expression.parse "+ (1" = .error .unexpectedEnd ∧
        (evaluateText "+ (1" = .error .unexpectedEnd ∧
          (Failure.tree .unexpectedEnd).exitCode = 65)) ∧
      (Expression.parse "-(3)" = .error (.invalidExpression "-(3)") ∧
        (evaluateText "-(3)" = .error (.invalidExpression "-(3)") ∧
          (Failure.tree (.invalidExpression "-(3)")).exitCode = 65)) ∧
      (evaluateText "/(10 -(4 4))" = .error .divisionByZero ∧
        (Failure.tree .divisionByZero).exitCode = 70 ∧
        ∃ r, renderText "/(10 -(4 4))" = .ok r) ∧
      normalizeText "(a)" = .error (.unexpectedToken "(") ∧
      (Failure.tree (.unexpectedToken "(")).exitCode = 65 := by
  have hshort : Expression.parse "+ (1" = .error .unexpectedEnd :=
    (failures_partition.1 _ _).mpr (.inl ⟨rfl, rfl⟩)
  have hsingle : Expression.parse "-(3)" = .error (.invalidExpression "-(3)") :=
    (failures_partition.1 _ _).mpr (.inr ⟨rfl, _, rfl, by decide⟩)
  obtain ⟨-, -, -, h65, h70, hnormalize, -⟩ := failures_partition
  have hparse : Expression.parse "/(10 -(4 4))" = .ok ⟨.node "/" [.leaf "10",
      .node "-" [.leaf "4", .leaf "4"]], by decide⟩ := Expression.parse_eq_ok_iff_tree.mpr rfl
  have hzero : evaluateText "/(10 -(4 4))" = .error .divisionByZero := by
    rw [evaluateText, hparse]
    rfl
  have hparenthesis : normalizeText "(a)" = .error (.unexpectedToken "(") := rfl
  exact ⟨⟨hshort, (h65 _ _).mpr (renderText_eq_error_iff.mpr hshort)⟩,
    ⟨hsingle, (h65 _ _).mpr (renderText_eq_error_iff.mpr hsingle)⟩,
    ⟨hzero, rfl, ((h70 _ _).mp ⟨hzero, rfl⟩).1⟩, hparenthesis, (hnormalize _ _ hparenthesis).2⟩

end TreeText
