import TreeText.Expression.Basic

/-!
# Evaluation

A literal has its number as its value. The operands of a sum or a product are evaluated from left to
right, each one being taken into the partial result as soon as it is known; of a difference or a
quotient the left operand is evaluated first, then the right one. The first fault ends the
evaluation.

Results:
* `Tree.evaluate_node`: the value of a node by its operator.
* `Tree.evaluateFrom_eq_foldlM`: sums and products are left folds.
-/

namespace TreeText

namespace Tree

mutual

/-- The value of a tree, or the first fault. -/
def evaluate : Tree String → Except Error Int64
  | node v cs =>
    match Operator.ofSymbol? v with
    | some .add => evaluateFrom .add 0 cs
    | some .multiply => evaluateFrom .multiply 1 cs
    | some op => evaluatePair op cs
    | none =>
      match literal? v with
      | some n => .ok n
      | none => .error (.invalidExpression (node v cs).canonical)

/-- The partial result `acc`, with the values of more operands taken in one after the other. -/
def evaluateFrom (op : Operator) (acc : Int64) : List (Tree String) → Except Error Int64
  | [] => .ok acc
  | c :: cs =>
    match c.evaluate with
    | .error e => .error e
    | .ok n =>
      match op.apply acc n with
      | .error e => .error e
      | .ok acc => evaluateFrom op acc cs

/-- What an operator makes of the first two operands. -/
def evaluatePair (op : Operator) : List (Tree String) → Except Error Int64
  | [] => .error (.indexOutOfRange 0 0)
  | l :: rest =>
    match l.evaluate with
    | .error e => .error e
    | .ok a => evaluateRight op a rest

/-- What an operator makes of the value of its left operand and the next operand. -/
def evaluateRight (op : Operator) (a : Int64) : List (Tree String) → Except Error Int64
  | [] => .error (.indexOutOfRange 1 1)
  | r :: _ =>
    match r.evaluate with
    | .error e => .error e
    | .ok b => op.apply a b

end

theorem evaluate_node (v : String) (cs : List (Tree String)) :
    (node v cs).evaluate
      = match Operator.ofSymbol? v with
        | some .add => evaluateFrom .add 0 cs
        | some .multiply => evaluateFrom .multiply 1 cs
        | some op => evaluatePair op cs
        | none =>
          match literal? v with
          | some n => .ok n
          | none => .error (.invalidExpression (node v cs).canonical) := by
  rw [evaluate]

theorem evaluateFrom_eq_foldlM (op : Operator) (acc : Int64) (cs : List (Tree String)) :
    evaluateFrom op acc cs = cs.foldlM (fun a c => c.evaluate >>= op.apply a) acc := by
  induction cs generalizing acc with
  | nil => rfl
  | cons c cs ih =>
    rw [evaluateFrom, List.foldlM_cons]
    cases c.evaluate with
    | error e => rfl
    | ok n =>
      simp only [bind, Except.bind]
      cases op.apply acc n with
      | error e => rfl
      | ok a => exact ih a

end Tree

/-- The value of an expression, or the first fault. -/
def Expression.evaluate (e : Expression) : Except Error Int64 := e.tree.evaluate

end TreeText
