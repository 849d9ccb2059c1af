import TreeText.Expression.Rendering
import TreeText.Proofs.Expression.Exact

/-!
# Sums and products as chains

A sum or a product of many operands is written without inner parentheses, and means what it means
with all parentheses set from the left: the partial results are the same, and so is the first fault.
Setting these parentheses everywhere gives an expression in which every operator has two operands.

Results:
* `Tree.evaluate_chain`: a chain of applications to two operands is evaluated as one application.
* `Tree.evaluate_concat`: the last operand may be taken out of a sum or a product.
* `Tree.exists_rendered_concat`: what this does to the rendering.
* `Tree.leftNested_concat`: what it means to set all parentheses from the left.
* `Expression.evaluate_chained`: parentheses from the left change neither values nor faults.
-/

namespace TreeText

namespace Operator

/-- Sums and products are chained: they take as many operands as there are. -/
def IsChained (op : Operator) : Prop := op = .add ∨ op = .multiply

theorem IsChained.accepts {op : Operator} (h : op.IsChained) {n : Nat} (hn : 2 ≤ n) :
    op.accepts n = true := by
  rcases h with rfl | rfl
  · exact decide_eq_true hn
  · exact decide_eq_true hn

theorem accepts_two (op : Operator) : op.accepts 2 = true := by
  cases op <;> rfl

/-- The other operators take two operands. -/
theorem eq_two_of_accepts {op : Operator} (h : ¬ op.IsChained) {n : Nat} (hn : op.accepts n = true) :
    n = 2 := by
  cases op with
  | add => exact absurd (.inl rfl) h
  | multiply => exact absurd (.inr rfl) h
  | subtract => exact of_decide_eq_true hn
  | divide => exact of_decide_eq_true hn

end Operator

namespace Tree

/-! ## Chains -/

/-- The operands taken in one after the other, each by an application of its own. -/
def chain (v : String) : List (Tree String) → Tree String
  | [] => node v []
  | c :: cs => cs.foldl (fun left d => node v [left, d]) c

theorem chain_concat (v : String) {cs : List (Tree String)} (hcs : cs ≠ []) (d : Tree String) :
    chain v (cs ++ [d]) = node v [chain v cs, d] := by
  cases cs with
  | nil => exact absurd rfl hcs
  | cons c cs =>
    rw [List.cons_append, chain, List.foldl_append]
    rfl

/-- What holds of the operands, and of each application to two trees of which it holds, holds of the
chain. -/
theorem chain_induction {p : Tree String → Prop} {v : String} {c : Tree String}
    {cs : List (Tree String)} (hoperands : ∀ d ∈ c :: cs, p d)
    (hpair : ∀ left d, p left → p d → p (node v [left, d])) : p (chain v (c :: cs)) := by
  show p (cs.foldl (fun left d => node v [left, d]) c)
  induction cs generalizing c with
  | nil => exact hoperands c (List.mem_cons_self ..)
  | cons d ds ih =>
    apply ih
    intro e he
    rcases List.mem_cons.mp he with rfl | he
    · exact hpair c d (hoperands c (by simp)) (hoperands d (by simp))
    · exact hoperands e (by simp [he])

/-- An application to two operands evaluates them from left to right. -/
theorem evaluate_pair {v : String} {op : Operator} (h : Operator.ofSymbol? v = some op)
    (c d : Tree String) :
    (node v [c, d]).evaluate = c.evaluate >>= fun a => d.evaluate >>= op.apply a := by
  have hcount : op.accepts [c, d].length = true := op.accepts_two
  rw [evaluate_application h hcount]
  simp only [List.foldlM_cons, List.foldlM_nil, bind_pure]

theorem evaluate_foldl_pair {v : String} {op : Operator} (h : Operator.ofSymbol? v = some op)
    (left : Tree String) (cs : List (Tree String)) :
    (cs.foldl (fun left d => node v [left, d]) left).evaluate =
      left.evaluate >>= cs.foldlM fun a d => d.evaluate >>= op.apply a := by
  induction cs generalizing left with
  | nil => exact (bind_pure _).symm
  | cons c cs ih =>
    rw [List.foldl_cons, ih, evaluate_pair h, bind_assoc]
    simp only [List.foldlM_cons]

/-- A chain of applications is evaluated as one application to all operands. -/
theorem evaluate_chain {v : String} {op : Operator} (h : Operator.ofSymbol? v = some op)
    {cs : List (Tree String)} (hcount : op.accepts cs.length = true) :
    (chain v cs).evaluate = (node v cs).evaluate := by
  obtain ⟨c₁, c₂, cs, rfl⟩ := Operator.exists_operands hcount
  rw [evaluate_application h hcount]
  exact evaluate_foldl_pair h c₁ (c₂ :: cs)

/-! ## The last operand -/

/-- The last operand of many may be taken out. -/
theorem evaluate_concat {v : String} {op : Operator} (h : Operator.ofSymbol? v = some op)
    (hop : op.IsChained) {cs : List (Tree String)} (hcs : 2 ≤ cs.length) (d : Tree String) :
    (node v (cs ++ [d])).evaluate = (node v [node v cs, d]).evaluate := by
  have hne : cs ≠ [] := List.ne_nil_of_length_pos (by omega)
  have hcount : op.accepts (cs ++ [d]).length = true :=
    hop.accepts (by rw [List.length_append]; omega)
  have hothers := evaluate_chain h (hop.accepts hcs)
  calc (node v (cs ++ [d])).evaluate
      = (chain v (cs ++ [d])).evaluate := (evaluate_chain h hcount).symm
    _ = (node v [chain v cs, d]).evaluate := by rw [chain_concat v hne]
    _ = (node v [node v cs, d]).evaluate := by rw [evaluate_pair h, evaluate_pair h, hothers]

/-- Taking the last operand out puts the others into parentheses. -/
theorem exists_rendered_concat (op : Operator) {cs : List (Tree String)} (hcs : cs ≠ [])
    (d : Tree String) :
    ∃ inner : String, (node op.symbol cs).rendered = "(" ++ inner ++ ")" ∧
      (node op.symbol (cs ++ [d])).rendered =
        "(" ++ (inner ++ (" " ++ op.symbol ++ " ") ++ d.rendered) ++ ")" ∧
      (node op.symbol [node op.symbol cs, d]).rendered =
        "(" ++ ("(" ++ inner ++ ")" ++ (" " ++ op.symbol ++ " ") ++ d.rendered) ++ ")" := by
  have hop := op.ofSymbol?_symbol
  refine ⟨_, rendered_application hop cs, ?_, ?_⟩
  · have hne : cs.map rendered ≠ [] := by simpa using hcs
    rw [rendered_application hop, List.map_append, List.map_singleton,
      String.intercalate_append_of_ne_nil hne (List.cons_ne_nil _ _), String.intercalate_singleton]
  · rw [rendered_application hop, List.map_cons, List.map_singleton, rendered_application hop cs,
      String.intercalate_cons_cons, String.intercalate_singleton]

/-! ## All parentheses from the left -/

/-- The tree with all parentheses set in its sums and products, from the left. -/
def leftNested : Tree String → Tree String :=
  fold fun v cs =>
    match Operator.ofSymbol? v with
    | some .add | some .multiply => chain v cs
    | _ => node v cs

theorem leftNested_of_isChained {v : String} {op : Operator} (h : Operator.ofSymbol? v = some op)
    (hop : op.IsChained) (cs : List (Tree String)) :
    (node v cs).leftNested = chain v (cs.map leftNested) := by
  rw [leftNested, fold_node, h]
  rcases hop with rfl | rfl <;> rfl

/-- The last operand of a sum or a product stands beside all others. -/
theorem leftNested_concat {v : String} {op : Operator} (h : Operator.ofSymbol? v = some op)
    (hop : op.IsChained) {cs : List (Tree String)} (hcs : cs ≠ []) (d : Tree String) :
    (node v (cs ++ [d])).leftNested = node v [(node v cs).leftNested, d.leftNested] := by
  have hne : cs.map leftNested ≠ [] := by simpa using hcs
  rw [leftNested_of_isChained h hop, leftNested_of_isChained h hop, List.map_append]
  exact chain_concat v hne d.leftNested

/-- An application to two operands is a chain already, whatever the operator. -/
theorem leftNested_application {v : String} {op : Operator} {cs : List (Tree String)}
    (h : Operator.ofSymbol? v = some op) (hcount : op.accepts cs.length = true) :
    (node v cs).leftNested = chain v (cs.map leftNested) := by
  by_cases hop : op.IsChained
  · exact leftNested_of_isChained h hop cs
  · obtain ⟨c, d, ds, rfl⟩ := Operator.exists_operands hcount
    have htwo : ds.length + 2 = 2 := Operator.eq_two_of_accepts hop hcount
    obtain rfl : ds = [] := List.length_eq_zero_iff.mp (by omega)
    rw [leftNested, fold_node, h]
    cases op <;> rfl

theorem leftNested_literal {v : String} {n : Int64} (h : literal? v = some n) :
    (node v []).leftNested = node v [] := by
  rw [leftNested, fold_node, ofSymbol?_of_literal? h]
  rfl

/-! ## What parentheses keep -/

/-- The expressions in which every operator has two operands. -/
def IsBinary (t : Tree String) : Prop :=
  t.Arithmetic ∧ ∀ s ∈ t.subtrees, s.arity = 0 ∨ s.arity = 2

theorem isBinary_literal {v : String} {n : Int64} (h : literal? v = some n) :
    (node v []).IsBinary :=
  ⟨.literal h, forall_mem_subtrees_node.mpr ⟨.inl rfl, by simp⟩⟩

theorem isBinary_pair {v : String} {op : Operator} (h : Operator.ofSymbol? v = some op)
    {c d : Tree String} (hc : c.IsBinary) (hd : d.IsBinary) : (node v [c, d]).IsBinary := by
  have hboth : ∀ e ∈ [c, d], e.IsBinary := by
    intro e he
    rcases List.mem_cons.mp he with rfl | he
    · exact hc
    · exact List.mem_singleton.mp he ▸ hd
  exact ⟨.application h op.accepts_two fun e he => (hboth e he).1,
    forall_mem_subtrees_node.mpr ⟨.inr rfl, fun e he => (hboth e he).2⟩⟩

/-- Setting the parentheses of an expression gives an expression with two operands to each operator,
and with the same value or fault. -/
theorem Arithmetic.isBinary_leftNested {t : Tree String} (h : t.Arithmetic) :
    t.leftNested.IsBinary ∧ t.leftNested.evaluate = t.evaluate := by
  induction h with
  | literal value =>
    rw [leftNested_literal value]
    exact ⟨isBinary_literal value, rfl⟩
  | @application v op cs symbol count operands ih =>
    have hcount : op.accepts (cs.map leftNested).length = true := by rw [List.length_map, count]
    have hbinary : ∀ d ∈ cs.map leftNested, d.IsBinary := by
      intro d hd
      obtain ⟨c, hc, rfl⟩ := List.mem_map.mp hd
      exact (ih c hc).1
    have houtcomes : (cs.map leftNested).map evaluate = cs.map evaluate := by
      rw [List.map_map]
      exact List.map_congr_left fun c hc => (ih c hc).2
    rw [leftNested_application symbol count, evaluate_chain symbol hcount,
      evaluate_congr symbol hcount houtcomes]
    obtain ⟨c₁, c₂, ds, hds⟩ := Operator.exists_operands hcount
    rw [hds] at hbinary ⊢
    exact ⟨chain_induction hbinary fun _ _ hleft hd => isBinary_pair symbol hleft hd, rfl⟩

end Tree

namespace Expression

open TreeText.Tree

/-- **Sums and products mean chains from the left.** A sum or a product of three or more operands has
the value, or the fault, of the one that takes the last operand to the sum or product of all others;
in the rendering this puts a pair of parentheses around the others. Setting all these parentheses in
an expression, so that every operator is left with two operands, gives an expression of the same
value or fault. -/
theorem evaluate_chained :
    (∀ (op : Operator) (cs : List (Tree String)) (d : Tree String), op = .add ∨ op = .multiply →
      2 ≤ cs.length →
      (node op.symbol (cs ++ [d])).evaluate = (node op.symbol [node op.symbol cs, d]).evaluate ∧
      (∃ inner : String, (node op.symbol cs).rendered = "(" ++ inner ++ ")" ∧
        (node op.symbol (cs ++ [d])).rendered =
          "(" ++ (inner ++ (" " ++ op.symbol ++ " ") ++ d.rendered) ++ ")" ∧
        (node op.symbol [node op.symbol cs, d]).rendered =
          "(" ++ ("(" ++ inner ++ ")" ++ (" " ++ op.symbol ++ " ") ++ d.rendered) ++ ")") ∧
      (node op.symbol (cs ++ [d])).leftNested =
        node op.symbol [(node op.symbol cs).leftNested, d.leftNested]) ∧
    ∀ e : Expression, ∃ r : Expression, r.tree = e.tree.leftNested ∧ r.evaluate = e.evaluate ∧
      ∀ s ∈ r.tree.subtrees, s.arity = 0 ∨ s.arity = 2 := by
  constructor
  · intro op cs d hop hcs
    have hsymbol := op.ofSymbol?_symbol
    have hne : cs ≠ [] := List.ne_nil_of_length_pos (by omega)
    exact ⟨evaluate_concat hsymbol hop hcs d, exists_rendered_concat op hne d,
      leftNested_concat hsymbol hop hne d⟩
  · intro e
    obtain ⟨⟨hvalid, hbinary⟩, heval⟩ := e.arithmetic.isBinary_leftNested
    exact ⟨⟨_, hvalid.isExpression⟩, rfl, heval, hbinary⟩

/-- A product whose second partial result does not fit, although the product is zero. -/
theorem evaluate_chained_overflow :
    (node "*" [leaf "9223372036854775807", leaf "2", leaf "0"]).evaluate = .error .overflow ∧
      (node "*" [node "*" [leaf "9223372036854775807", leaf "2"], leaf "0"]).evaluate =
        .error .overflow ∧
      (node "*" [leaf "9223372036854775807", leaf "2", leaf "0"]).leftNested =
        node "*" [node "*" [leaf "9223372036854775807", leaf "2"], leaf "0"] := by
  obtain ⟨heval, -, hnested⟩ := evaluate_chained.1 .multiply
    [leaf "9223372036854775807", leaf "2"] (leaf "0") (.inr rfl) (by decide)
  exact ⟨rfl, heval.symm, hnested⟩

end Expression

end TreeText
