import TreeText.Proofs.Expression.Exact
import TreeText.Tree.Path

/-!
# Replacing a part of an expression

A part of an expression counts for its value or its fault only. Another expression with the same
outcome may stand in its place, wherever that is: the operators above do not see the difference, and
they do not evaluate more or less of the other operands. So a part whose value is not negative may be
replaced by the literal for its value.

Results:
* `Tree.Arithmetic.replaceAt`: what a replacement keeps, by induction on the path.
* `Tree.Arithmetic.leaf_toString`: the literal for a number.
* `Expression.evaluate_replaceAt`: equal outcomes may be exchanged, and values be folded in.
-/

namespace TreeText

theorem map_set_of_eq {α β : Type} {cs : List α} {c c' : α} {i : Nat} {f : α → β}
    (hc : cs[i]? = some c) (hf : f c' = f c) : (cs.set i c').map f = cs.map f := by
  obtain ⟨hi, rfl⟩ := List.getElem?_eq_some_iff.mp hc
  rw [List.map_set, hf, ← List.map_set, List.set_getElem_self]

namespace Tree

/-- An application with one operand replaced by another one of the same outcome. -/
theorem Arithmetic.set_operand {v : String} {op : Operator} {cs : List (Tree String)}
    {c c' : Tree String} {i : Nat} (symbol : Operator.ofSymbol? v = some op)
    (count : op.accepts cs.length = true) (operands : ∀ d ∈ cs, d.Arithmetic)
    (hc : cs[i]? = some c) (hc' : c'.Arithmetic) (houtcome : c'.evaluate = c.evaluate) :
    (node v (cs.set i c')).Arithmetic ∧
      (node v (cs.set i c')).evaluate = (node v cs).evaluate := by
  have hcount : op.accepts (cs.set i c').length = true := by rw [List.length_set, count]
  refine ⟨.application symbol hcount fun d hd => ?_,
    evaluate_congr symbol hcount (map_set_of_eq hc houtcome)⟩
  rcases List.mem_or_eq_of_mem_set hd with hd | rfl
  · exact operands d hd
  · exact hc'

/-- A replacement of the same outcome keeps an expression an expression, and keeps its outcome. -/
theorem Arithmetic.replaceAt {t s s' : Tree String} {path : List Nat} (ht : t.Arithmetic)
    (hs : t.subtreeAt path = .ok s) (hs' : s'.Arithmetic) (houtcome : s'.evaluate = s.evaluate) :
    ∃ r, t.replaceAt path s' = .ok r ∧ r.Arithmetic ∧ r.evaluate = t.evaluate := by
  induction path generalizing t with
  | nil =>
    cases hs
    exact ⟨s', rfl, hs', houtcome⟩
  | cons i path ih =>
    obtain ⟨c, hc, hbelow⟩ := subtreeAt_cons_eq_ok_iff.mp hs
    have hchild := childAt_eq_ok_iff.mp hc
    cases ht with
    | literal value => cases hchild
    | @application v op cs symbol count operands =>
      obtain ⟨c', hc', hvalid, heval⟩ := ih (operands c (List.mem_of_getElem? hchild)) hbelow
      obtain ⟨hnode, houtcome'⟩ :=
        Arithmetic.set_operand symbol count operands hchild hvalid heval
      exact ⟨_, modifyAt_cons_eq_ok_iff.mpr ⟨c, c', hc, hc', rfl⟩, hnode, houtcome'⟩

/-- The literal for a number that is not negative has this number as its value. -/
theorem Arithmetic.leaf_toString {n : Int64} (h : 0 ≤ n) :
    (leaf (toString n)).Arithmetic ∧ (leaf (toString n)).evaluate = .ok n :=
  ⟨.literal (literal?_toString h), evaluate_literal (literal?_toString h) []⟩

end Tree

namespace Expression

open TreeText.Tree

theorem exists_replaceAt {e : Expression} {path : List Nat} {s s' : Tree String}
    (hs : e.tree.subtreeAt path = .ok s) (hs' : s'.Arithmetic) (houtcome : s'.evaluate = s.evaluate) :
    ∃ r : Expression, e.tree.replaceAt path s' = .ok r.tree ∧ r.evaluate = e.evaluate := by
  obtain ⟨r, hr, hvalid, heval⟩ := e.arithmetic.replaceAt hs hs' houtcome
  exact ⟨⟨r, hvalid.isExpression⟩, hr, heval⟩

/-- **Parts of expressions may be exchanged for others of the same outcome.** At every node of an
expression, putting an expression with the same value or the same fault there gives an expression
with the same value or fault as before. In particular, a part whose value is not negative may be
replaced by the decimal text of its value. -/
theorem evaluate_replaceAt (e : Expression) (path : List Nat) {s : Tree String}
    (hs : e.tree.subtreeAt path = .ok s) :
    (∀ e' : Expression, e'.evaluate = s.evaluate →
      ∃ r : Expression, e.tree.replaceAt path e'.tree = .ok r.tree ∧ r.evaluate = e.evaluate) ∧
    ∀ n : Int64, 0 ≤ n → s.evaluate = .ok n →
      ∃ r : Expression, e.tree.replaceAt path (leaf (toString n)) = .ok r.tree ∧
        r.evaluate = e.evaluate := by
  constructor
  · intro e' houtcome
    exact exists_replaceAt hs e'.arithmetic houtcome
  · intro n hn hvalue
    obtain ⟨hvalid, heval⟩ := Arithmetic.leaf_toString hn
    exact exists_replaceAt hs hvalid (heval.trans hvalue.symm)

/-- A sum with an overflow and a zero divisor behind it. The overflow is exchanged for another one,
and the zero divisor is folded in, and both times the overflow decides. -/
theorem evaluate_replaceAt_quotient :
    ∃ e : Expression, e.tree = node "/" [node "+" [leaf "9223372036854775807", leaf "1"],
        node "-" [leaf "3", leaf "3"]] ∧ e.evaluate = .error .overflow ∧
      (∃ r : Expression, e.tree.replaceAt [0] (node "*" [leaf "9223372036854775807", leaf "2"]) =
        .ok r.tree ∧ r.evaluate = e.evaluate) ∧
      ∃ r : Expression, e.tree.replaceAt [1] (leaf "0") = .ok r.tree ∧ r.evaluate = e.evaluate := by
  have hvalid : (node "/" [node "+" [leaf "9223372036854775807", leaf "1"],
      node "-" [leaf "3", leaf "3"]]).isExpression = true := by decide
  obtain ⟨hexchange, -⟩ := evaluate_replaceAt ⟨_, hvalid⟩ [0] rfl
  obtain ⟨-, hfold⟩ := evaluate_replaceAt ⟨_, hvalid⟩ [1] rfl
  exact ⟨⟨_, hvalid⟩, rfl, rfl,
    hexchange ⟨node "*" [leaf "9223372036854775807", leaf "2"], by decide⟩ rfl,
    hfold 0 (by decide) rfl⟩

end Expression

end TreeText
