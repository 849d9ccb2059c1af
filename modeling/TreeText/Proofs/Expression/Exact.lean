import TreeText.Expression.Evaluate
import TreeText.Proofs.Expression.Checked
import TreeText.Proofs.Expression.Validity

/-!
# Exact evaluation

Expressions also have values as integers of any size. The evaluation on 64-bit integers is this
exact one, stopped at the first fault: at the first operation, in order, that divides by zero or
whose exact result 64 bits cannot hold.

Results:
* `Tree.exactOutcome_eq_outcome`: stopping at the first fault is looking for the first fault in the
  list of all operations.
* `Tree.evaluate_application`: any application is evaluated as its first operand, into which the
  other ones are taken one after the other.
* `Tree.evaluate_congr`: an application depends on its operands through their values and faults only.
* `Tree.Arithmetic.map_evaluate`: the evaluation on 64-bit integers is the exact one with its faults.
* `Tree.Arithmetic.fault_of_evaluate`: evaluating an expression fails with faults only.
* `Expression.evaluate_exact`: value and error of an evaluation, by the list of its operations.
-/

namespace TreeText

/-! ## Operations -/

/-- One operation of an evaluation: an operator and the exact numbers that it is applied to. -/
structure Operation where
  op : Operator
  left : Int
  right : Int
  deriving DecidableEq, Repr

namespace Operation

/-- What is wrong with an operation, if anything. -/
def fault? (o : Operation) : Option Error := o.op.fault? o.left o.right

/-- The number `n`, or the fault of the first of the operations that is one. -/
def outcome (os : List Operation) (n : Int) : Except Error Int :=
  match os.findSome? fault? with
  | some e => .error e
  | none => .ok n

theorem outcome_append (os ps : List Operation) (m n : Int) :
    outcome (os ++ ps) n = outcome os m >>= fun _ => outcome ps n := by
  unfold outcome
  rw [List.findSome?_append]
  cases os.findSome? fault? <;> rfl

theorem outcome_cons (o : Operation) (os : List Operation) (n : Int) :
    outcome (o :: os) n = o.op.checked o.left o.right >>= fun _ => outcome os n := by
  unfold outcome
  rw [List.findSome?_cons, Operator.checked, fault?]
  cases o.op.fault? o.left o.right <;> rfl

/-- What follows operations without a fault goes on with their number. -/
theorem outcome_bind (os : List Operation) (n : Int) (f : Int → Except Error Int) :
    outcome os n >>= f = outcome os n >>= fun _ => f n := by
  unfold outcome
  cases os.findSome? fault? <;> rfl

theorem outcome_eq_ok_iff {os : List Operation} {m n : Int} :
    outcome os m = .ok n ↔ (∀ o ∈ os, o.fault? = none) ∧ n = m := by
  unfold outcome
  rw [← List.findSome?_eq_none_iff]
  cases os.findSome? fault? <;> simp [eq_comm]

theorem outcome_eq_error_iff {os : List Operation} {n : Int} {e : Error} :
    outcome os n = .error e ↔
      ∃ before o after, os = before ++ o :: after ∧ o.fault? = some e ∧
        ∀ p ∈ before, p.fault? = none := by
  unfold outcome
  rw [← List.findSome?_eq_some_iff]
  cases os.findSome? fault? <;> simp

end Operation

namespace Tree

/-- The exact number that a tree stands for: of a literal its decimal value, of an application what
the operator makes of the operands from left to right. -/
def exactValue : Tree String → Int :=
  fold fun v ns =>
    match Operator.ofSymbol? v, ns with
    | some op, n :: ns => ns.foldl op.exact n
    | _, _ => Numeral.value 10 v.toList

/-- The exact number that a tree stands for, or the first fault met on the way to it. -/
def exactOutcome : Tree String → Except Error Int :=
  fold fun v outcomes =>
    match Operator.ofSymbol? v, outcomes with
    | some op, first :: rest => first >>= rest.foldlM fun a outcome => outcome >>= op.checked a
    | _, _ => .ok (Numeral.value 10 v.toList)

mutual

/-- All operations of the evaluation of a tree, in order. None is left out, whatever faults there
are. -/
def operations : Tree String → List Operation
  | node v cs =>
    match Operator.ofSymbol? v with
    | some op => operationsAll op cs
    | none => []

/-- The operations for the operands of an application: those of the first operand, then those for
the other ones. -/
def operationsAll (op : Operator) : List (Tree String) → List Operation
  | [] => []
  | c :: cs => c.operations ++ operationsFrom op c.exactValue cs

/-- The operations for more operands behind the exact partial result `acc`: of each one its own, and
then the one that takes its number in. -/
def operationsFrom (op : Operator) (acc : Int) : List (Tree String) → List Operation
  | [] => []
  | c :: cs =>
    c.operations ++ ⟨op, acc, c.exactValue⟩ :: operationsFrom op (op.exact acc c.exactValue) cs

end

/-! ## The first fault -/

theorem exactValue_application {v : String} {op : Operator} (h : Operator.ofSymbol? v = some op)
    (c : Tree String) (cs : List (Tree String)) :
    (node v (c :: cs)).exactValue = (cs.map exactValue).foldl op.exact c.exactValue := by
  rw [exactValue, fold_node, h]
  rfl

theorem exactOutcome_application {v : String} {op : Operator} (h : Operator.ofSymbol? v = some op)
    (c : Tree String) (cs : List (Tree String)) :
    (node v (c :: cs)).exactOutcome =
      c.exactOutcome >>= cs.foldlM fun a d => d.exactOutcome >>= op.checked a := by
  rw [exactOutcome, fold_node, h, List.map_cons]
  exact congrArg _ (funext fun a => List.foldlM_map ..)

theorem operations_application {v : String} {op : Operator} (h : Operator.ofSymbol? v = some op)
    (c : Tree String) (cs : List (Tree String)) :
    (node v (c :: cs)).operations = c.operations ++ operationsFrom op c.exactValue cs := by
  rw [operations, h]
  rfl

theorem foldlM_exactOutcome (op : Operator) (acc : Int) {cs : List (Tree String)}
    (h : ∀ c ∈ cs, c.exactOutcome = Operation.outcome c.operations c.exactValue) :
    cs.foldlM (fun a c => c.exactOutcome >>= op.checked a) acc =
      Operation.outcome (operationsFrom op acc cs) ((cs.map exactValue).foldl op.exact acc) := by
  induction cs generalizing acc with
  | nil => rfl
  | cons c cs ih =>
    have hcs := ih (op.exact acc c.exactValue) fun d hd => h d (List.mem_cons_of_mem c hd)
    rw [List.foldlM_cons, h c (List.mem_cons_self ..), operationsFrom,
      Operation.outcome_append _ _ c.exactValue, Operation.outcome_cons, bind_assoc,
      Operation.outcome_bind, Operator.checked_bind, hcs]
    rfl

/-- On every tree, to stop at the first fault is to find it in the list of all operations. -/
theorem exactOutcome_eq_outcome (t : Tree String) :
    t.exactOutcome = Operation.outcome t.operations t.exactValue := by
  induction t with
  | node v cs ih =>
    cases hop : Operator.ofSymbol? v with
    | none =>
      rw [exactOutcome, exactValue, operations, fold_node, fold_node, hop]
      rfl
    | some op =>
      cases cs with
      | nil =>
        rw [exactOutcome, exactValue, operations, fold_node, fold_node, hop]
        rfl
      | cons c cs =>
        have hcs := foldlM_exactOutcome op c.exactValue fun d hd =>
          ih d (List.mem_cons_of_mem c hd)
        rw [exactOutcome_application hop, exactValue_application hop, operations_application hop,
          Operation.outcome_append _ _ c.exactValue, ih c (List.mem_cons_self ..),
          Operation.outcome_bind, hcs]

/-! ## Evaluation on 64-bit integers -/

/-- Starting from an operand without effect is starting from the first operand. -/
theorem evaluateFrom_neutral {op : Operator} {e : Int64} (he : ∀ n, op.apply e n = .ok n)
    (c : Tree String) (cs : List (Tree String)) :
    evaluateFrom op e (c :: cs) =
      c.evaluate >>= cs.foldlM fun a d => d.evaluate >>= op.apply a := by
  have happly : op.apply e = Except.ok := funext he
  rw [evaluateFrom_eq_foldlM, List.foldlM_cons, happly]
  cases c.evaluate <;> rfl

theorem evaluatePair_pair (op : Operator) (c d : Tree String) :
    evaluatePair op [c, d] =
      c.evaluate >>= [d].foldlM fun a d => d.evaluate >>= op.apply a := by
  simp only [evaluatePair, evaluateRight, List.foldlM_cons, List.foldlM_nil, bind_pure]
  cases c.evaluate with
  | error e => rfl
  | ok a => cases d.evaluate <;> rfl

/-- All four operators work alike: the first operand is evaluated, and then the other ones are taken
in one after the other. -/
theorem evaluate_application {v : String} {op : Operator} {c : Tree String} {cs : List (Tree String)}
    (h : Operator.ofSymbol? v = some op) (hcount : op.accepts (c :: cs).length = true) :
    (node v (c :: cs)).evaluate =
      c.evaluate >>= cs.foldlM fun a d => d.evaluate >>= op.apply a := by
  have hpair (hone : cs.length = 1) : evaluatePair op (c :: cs) =
      c.evaluate >>= cs.foldlM fun a d => d.evaluate >>= op.apply a := by
    obtain ⟨d, rfl⟩ := List.length_eq_one_iff.mp hone
    exact evaluatePair_pair op c d
  rw [evaluate_node, h]
  cases op with
  | add => exact evaluateFrom_neutral Operator.apply_add_zero c cs
  | multiply => exact evaluateFrom_neutral Operator.apply_multiply_one c cs
  | subtract => exact hpair (by simpa [Operator.accepts] using hcount)
  | divide => exact hpair (by simpa [Operator.accepts] using hcount)

theorem evaluate_literal {v : String} {n : Int64} (h : literal? v = some n)
    (cs : List (Tree String)) : (node v cs).evaluate = .ok n := by
  rw [evaluate_node, ofSymbol?_of_literal? h, h]

/-- An application depends on its operands through their values and faults only. -/
theorem evaluate_congr {v : String} {op : Operator} {cs ds : List (Tree String)}
    (h : Operator.ofSymbol? v = some op) (hcount : op.accepts cs.length = true)
    (hoperands : cs.map evaluate = ds.map evaluate) : (node v cs).evaluate = (node v ds).evaluate := by
  have hlength : cs.length = ds.length := by simpa using congrArg List.length hoperands
  have hcount' : op.accepts ds.length = true := hlength ▸ hcount
  have hfold (es : List (Tree String)) (a : Int64) :
      es.foldlM (fun a d => d.evaluate >>= op.apply a) a =
        (es.map evaluate).foldlM (fun a r => r >>= op.apply a) a := by
    rw [List.foldlM_map]
  obtain ⟨c, c₂, cs, rfl⟩ := Operator.exists_operands hcount
  obtain ⟨d, d₂, ds, rfl⟩ := Operator.exists_operands hcount'
  obtain ⟨hfirst, hfurther⟩ := List.cons.inj hoperands
  rw [evaluate_application h hcount, evaluate_application h hcount', hfirst]
  exact congrArg (_ >>= ·) (funext fun a => by rw [hfold, hfold, hfurther])

theorem map_foldlM_evaluate (op : Operator) (acc : Int64) {cs : List (Tree String)}
    (h : ∀ c ∈ cs, c.evaluate.map Int64.toInt = c.exactOutcome) :
    (cs.foldlM (fun a c => c.evaluate >>= op.apply a) acc).map Int64.toInt =
      cs.foldlM (fun a c => c.exactOutcome >>= op.checked a) acc.toInt := by
  induction cs generalizing acc with
  | nil => rfl
  | cons c cs ih =>
    rw [List.foldlM_cons, List.foldlM_cons, ← h c (List.mem_cons_self ..)]
    cases c.evaluate with
    | error e => rfl
    | ok n =>
      have hstep := op.map_apply acc n
      simp only [Except.map, bind, Except.bind] at hstep ⊢
      rw [← hstep]
      cases op.apply acc n with
      | error e => rfl
      | ok a => exact ih a fun d hd => h d (List.mem_cons_of_mem c hd)

/-- The evaluation of an expression on 64-bit integers is the exact one with its faults. -/
theorem Arithmetic.map_evaluate {t : Tree String} (h : t.Arithmetic) :
    t.evaluate.map Int64.toInt = t.exactOutcome := by
  induction h with
  | literal value =>
    rw [evaluate_literal value, exactOutcome, fold_node, ofSymbol?_of_literal? value]
    exact congrArg _ (toInt_of_literal? value)
  | @application v op cs symbol count operands ih =>
    obtain ⟨c, d, ds, rfl⟩ := Operator.exists_operands count
    rw [evaluate_application symbol count, exactOutcome_application symbol,
      ← ih c (List.mem_cons_self ..)]
    cases c.evaluate with
    | error e => rfl
    | ok a => exact map_foldlM_evaluate op a fun e he => ih e (List.mem_cons_of_mem c he)

/-- The evaluation of an expression fails with faults only. -/
theorem Arithmetic.fault_of_evaluate {t : Tree String} (h : t.Arithmetic) {e : Error}
    (he : t.evaluate = .error e) : e = .divisionByZero ∨ e = .overflow := by
  have houtcome : Operation.outcome t.operations t.exactValue = .error e := by
    rw [← exactOutcome_eq_outcome, ← h.map_evaluate, he]
    rfl
  obtain ⟨_, o, _, -, hfault, -⟩ := Operation.outcome_eq_error_iff.mp houtcome
  exact Operator.eq_or_eq_of_fault? hfault

end Tree

namespace Expression

/-- **Evaluation is exact up to the first fault.** The outcome of an evaluation is that of the exact
evaluation which stops at the first fault. So it is a number if and only if no operation is a fault,
and then it is the exact one; and otherwise it is the error of the first operation that is a fault. -/
theorem evaluate_exact (e : Expression) :
    e.evaluate.map Int64.toInt = e.tree.exactOutcome ∧
      (∀ n : Int64, e.evaluate = .ok n ↔
        (∀ o ∈ e.tree.operations, o.fault? = none) ∧ n.toInt = e.tree.exactValue) ∧
      ∀ fault, e.evaluate = .error fault ↔
        ∃ before o after, e.tree.operations = before ++ o :: after ∧ o.fault? = some fault ∧
          ∀ p ∈ before, p.fault? = none := by
  have hmap := e.arithmetic.map_evaluate
  have hok (n : Int64) : e.evaluate = .ok n ↔ e.evaluate.map Int64.toInt = .ok n.toInt := by
    cases e.evaluate <;> simp [Except.map, Int64.toInt_inj]
  have herror (fault : Error) :
      e.evaluate = .error fault ↔ e.evaluate.map Int64.toInt = .error fault := by
    cases e.evaluate <;> simp [Except.map]
  refine ⟨hmap, fun n => ?_, fun fault => ?_⟩
  · rw [hok, evaluate, hmap, Tree.exactOutcome_eq_outcome, Operation.outcome_eq_ok_iff]
  · rw [herror, evaluate, hmap, Tree.exactOutcome_eq_outcome, Operation.outcome_eq_error_iff]

open TreeText.Tree in
/-- A partial product that does not fit although the product is zero, the smallest number by minus
one, a fault in front of a zero divisor, and a negative quotient. -/
theorem evaluate_exact_extremes :
    (∃ e : Expression, e.tree = node "*" [leaf "9223372036854775807", leaf "2", leaf "0"] ∧
        e.tree.exactValue = 0 ∧ e.evaluate = .error .overflow) ∧
      (∃ e : Expression, e.tree = node "/" [node "-" [node "-" [leaf "0",
          leaf "9223372036854775807"], leaf "1"], node "-" [leaf "0", leaf "1"]] ∧
        e.evaluate = .error .overflow) ∧
      (∃ e : Expression, e.tree = node "/" [node "*" [leaf "9223372036854775807", leaf "2"],
          leaf "0"] ∧ e.evaluate = .error .overflow) ∧
      ∃ e : Expression, e.tree = node "/" [node "-" [leaf "0", leaf "9"], leaf "2"] ∧
        e.evaluate = .ok (-4) := by
  refine ⟨⟨⟨_, by decide⟩, rfl, by decide, ?_⟩, ⟨⟨_, by decide⟩, rfl, ?_⟩,
    ⟨⟨_, by decide⟩, rfl, ?_⟩, ⟨⟨_, by decide⟩, rfl, ?_⟩⟩
  · exact ((evaluate_exact _).2.2 _).mpr ⟨[], _, _, rfl, by decide, by decide⟩
  · exact ((evaluate_exact _).2.2 _).mpr
      ⟨[⟨.subtract, 0, 9223372036854775807⟩, ⟨.subtract, -9223372036854775807, 1⟩,
        ⟨.subtract, 0, 1⟩], ⟨.divide, -9223372036854775808, -1⟩, [], rfl, by decide, by decide⟩
  · exact ((evaluate_exact _).2.2 _).mpr ⟨[], _, _, rfl, by decide, by decide⟩
  · exact ((evaluate_exact _).2.1 _).mpr (by decide)

end Expression

end TreeText
