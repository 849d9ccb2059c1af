import TreeText.Expression.Rendering
import TreeText.Proofs.Expression.Validity

/-!
# Expressions by their renderings

A rendering is read from left to right. A digit starts a literal, which goes on as long as there are
digits. A parenthesis starts an application: its first operand is read in the same way, and behind
it stands an operator, because every application has a second operand. This operator stands between
all operands, up to the closing parenthesis.

Results:
* `Tree.Arithmetic.readable`: the rendering of an expression can be told from what follows
  it.
* `Expression.rendered_inj`: expressions are rendered alike only if they are the same tree.
-/

namespace TreeText

/-! ## Runs of digits -/

/-- Whether a run of digits ends in front of a text. -/
def EndsRun (rest : List Char) : Prop := ∀ c ∈ rest.head?, c.isDigit = false

theorem endsRun_nil : EndsRun [] := by
  intro c hc
  nomatch hc

theorem endsRun_cons {c : Char} (h : c.isDigit = false) (rest : List Char) :
    EndsRun (c :: rest) := by
  rintro d ⟨⟩
  exact h

theorem digits_append_inj {ds es rest rest' : List Char} (hds : ∀ c ∈ ds, c.isDigit = true)
    (hes : ∀ c ∈ es, c.isDigit = true) (hrest : EndsRun rest) (hrest' : EndsRun rest')
    (h : ds ++ rest = es ++ rest') : ds = es ∧ rest = rest' := by
  induction ds generalizing es with
  | nil =>
    cases es with
    | nil => exact ⟨rfl, h⟩
    | cons e es =>
      have he := hrest e (by rw [List.nil_append] at h; rw [h]; rfl)
      rw [hes e (List.mem_cons_self ..)] at he
      nomatch he
  | cons d ds ih =>
    cases es with
    | nil =>
      have hd := hrest' d (by rw [List.nil_append] at h; rw [← h]; rfl)
      rw [hds d (List.mem_cons_self ..)] at hd
      nomatch hd
    | cons e es =>
      obtain ⟨rfl, htails⟩ := List.cons.inj h
      obtain ⟨rfl, hrests⟩ := ih (fun c hc => hds c (List.mem_cons_of_mem d hc))
        (fun c hc => hes c (List.mem_cons_of_mem d hc)) htails
      exact ⟨rfl, hrests⟩

/-! ## Operands -/

/-- What stands between two operands. -/
def Operator.separator (op : Operator) : List Char := ' ' :: (op.symbol.toList ++ [' '])

theorem Operator.toList_separator (op : Operator) :
    (" " ++ op.symbol ++ " ").toList = op.separator := by
  simp [separator]

theorem Operator.separator_append_inj {op op' : Operator} {rest rest' : List Char}
    (h : op.separator ++ rest = op'.separator ++ rest') : op = op' ∧ rest = rest' := by
  cases op <;> cases op' <;> simp_all [separator, symbol]

namespace Tree

/-- What stands behind the first operand, up to the closing parenthesis. -/
def furtherOperands (op : Operator) (cs : List (Tree String)) : List Char :=
  cs.flatMap fun c => op.separator ++ c.rendered.toList

theorem furtherOperands_cons (op : Operator) (c : Tree String) (cs : List (Tree String)) :
    furtherOperands op (c :: cs) =
      op.separator ++ (c.rendered.toList ++ furtherOperands op cs) := by
  rw [furtherOperands, List.flatMap_cons, List.append_assoc]
  rfl

theorem toList_rendered_application {v : String} {op : Operator}
    (h : Operator.ofSymbol? v = some op) (c : Tree String) (cs : List (Tree String)) :
    (node v (c :: cs)).rendered.toList =
      '(' :: (c.rendered.toList ++ (furtherOperands op cs ++ [')'])) := by
  rw [rendered_application h, List.map_cons, String.toList_append, String.toList_append,
    toList_intercalate_cons, List.flatMap_map, op.toList_separator, List.append_assoc,
    List.append_assoc]
  rfl

theorem endsRun_furtherOperands (op : Operator) (cs : List (Tree String)) (rest : List Char) :
    EndsRun (furtherOperands op cs ++ ')' :: rest) := by
  cases cs with
  | nil => exact endsRun_cons rfl rest
  | cons c cs => exact endsRun_cons rfl _

/-- Whether the rendering of a tree can be told from what follows it, when expressions are read. -/
def Readable (t : Tree String) : Prop :=
  ∀ {u : Tree String} {rest rest' : List Char}, u.Arithmetic → EndsRun rest →
    EndsRun rest' → t.rendered.toList ++ rest = u.rendered.toList ++ rest' →
    t = u ∧ rest = rest'

/-- Operands that are readable one by one are so as a list, up to the closing parenthesis. -/
theorem furtherOperands_append_inj {op : Operator} {cs ds : List (Tree String)}
    {rest rest' : List Char} (hcs : ∀ c ∈ cs, c.Readable) (hds : ∀ d ∈ ds, d.Arithmetic)
    (h : furtherOperands op cs ++ ')' :: rest = furtherOperands op ds ++ ')' :: rest') :
    cs = ds ∧ rest = rest' := by
  induction cs generalizing ds with
  | nil =>
    cases ds with
    | nil => exact ⟨rfl, List.tail_eq_of_cons_eq h⟩
    | cons d ds => nomatch h
  | cons c cs ih =>
    cases ds with
    | nil => nomatch h
    | cons d ds =>
      rw [furtherOperands_cons, furtherOperands_cons, List.append_assoc, List.append_assoc,
        List.append_assoc, List.append_assoc] at h
      obtain ⟨-, hoperands⟩ := Operator.separator_append_inj h
      obtain ⟨rfl, hfurther⟩ := hcs c (List.mem_cons_self ..) (hds d (List.mem_cons_self ..))
        (endsRun_furtherOperands op cs rest) (endsRun_furtherOperands op ds rest') hoperands
      obtain ⟨rfl, hrests⟩ := ih (fun x hx => hcs x (List.mem_cons_of_mem c hx))
        (fun x hx => hds x (List.mem_cons_of_mem c hx)) hfurther
      exact ⟨rfl, hrests⟩

/-! ## Expressions -/

theorem rendered_of_literal? {v : String} {n : Int64} (h : literal? v = some n) :
    (node v []).rendered = v :=
  rendered_literal (ofSymbol?_of_literal? h) []

/-- A literal starts with a digit, and no application does. -/
theorem literal_append_ne_application {v w : String} {n : Int64} {op : Operator}
    (hv : literal? v = some n) (hw : Operator.ofSymbol? w = some op) (c : Tree String)
    (cs : List (Tree String)) (rest rest' : List Char) :
    v.toList ++ rest ≠ (node w (c :: cs)).rendered.toList ++ rest' := by
  obtain ⟨hne, hdigits, -⟩ := literal?_eq_some_iff.mp hv
  intro h
  rw [toList_rendered_application hw] at h
  cases hlist : v.toList with
  | nil => exact hne (String.toList_eq_nil_iff.mp hlist)
  | cons d ds =>
    rw [hlist] at h
    obtain ⟨rfl, -⟩ := List.cons.inj h
    have := hdigits '(' (by rw [hlist]; exact List.mem_cons_self ..)
    nomatch this

theorem Arithmetic.readable {t : Tree String} (h : t.Arithmetic) : t.Readable := by
  induction h with
  | literal value =>
    intro u rest rest' hu hrest hrest' heq
    cases hu with
    | literal value' =>
      rw [rendered_of_literal? value, rendered_of_literal? value'] at heq
      obtain ⟨hvalues, hrests⟩ := digits_append_inj (literal?_eq_some_iff.mp value).2.1
        (literal?_eq_some_iff.mp value').2.1 hrest hrest' heq
      exact ⟨by rw [String.toList_inj.mp hvalues], hrests⟩
    | application symbol' count' _ =>
      obtain ⟨d, e, ds, rfl⟩ := Operator.exists_operands count'
      rw [rendered_of_literal? value] at heq
      exact absurd heq (literal_append_ne_application value symbol' _ _ _ _)
  | @application v op cs symbol count _ ih =>
    intro u rest rest' hu hrest hrest' heq
    obtain ⟨c₁, c₂, cs, rfl⟩ := Operator.exists_operands count
    cases hu with
    | literal value' =>
      rw [rendered_of_literal? value'] at heq
      exact absurd heq.symm (literal_append_ne_application value' symbol _ _ _ _)
    | @application w op' ds symbol' count' operands' =>
      obtain ⟨d₁, d₂, ds, rfl⟩ := Operator.exists_operands count'
      rw [toList_rendered_application symbol, toList_rendered_application symbol'] at heq
      simp only [List.cons_append, List.append_assoc, List.nil_append, List.cons.injEq,
        true_and] at heq
      -- the first operand, then the operator behind it, then the other operands
      obtain ⟨rfl, hfurther⟩ := ih c₁ (by simp) (operands' d₁ (by simp))
        (endsRun_furtherOperands op _ rest) (endsRun_furtherOperands op' _ rest') heq
      obtain rfl : op = op' := by
        simp only [furtherOperands_cons, List.append_assoc] at hfurther
        exact (Operator.separator_append_inj hfurther).1
      obtain ⟨hoperands, hrests⟩ := furtherOperands_append_inj
        (fun c hc => ih c (List.mem_cons_of_mem c₁ hc))
        (fun d hd => operands' d (List.mem_cons_of_mem c₁ hd)) hfurther
      have hsymbols : v = w := by
        rw [Operator.ofSymbol?_eq_some_iff.mp symbol, Operator.ofSymbol?_eq_some_iff.mp symbol']
      exact ⟨by rw [hsymbols, hoperands], hrests⟩

end Tree

/-- **Renderings are unambiguous.** Two expressions are rendered alike if and only if they are the
same tree. -/
theorem Expression.rendered_inj (a b : Expression) : toString a = toString b ↔ a.tree = b.tree := by
  constructor
  · intro h
    have happend : a.tree.rendered.toList ++ [] = b.tree.rendered.toList ++ [] :=
      congrArg (fun s : String => s.toList ++ []) h
    exact (a.arithmetic.readable b.arithmetic endsRun_nil endsRun_nil happend).1
  · intro h
    rw [Expression.ext h]

/-- An operator with one operand would be lost. -/
example : (Tree.node "+" [.leaf "5"]).rendered = (Tree.node "*" [.leaf "5"]).rendered := by decide

end TreeText
