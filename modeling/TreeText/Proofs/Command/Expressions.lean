import TreeText.Proofs.Command.Calls
import TreeText.Proofs.Command.Failures

/-!
# Calls on expressions

A caller who has an expression can give its text as it stands or behind `--`. Behind `--` its value
and its rendering are told whatever the text is. As it stands, a text with a hyphen in front is taken
for options. In the text of an expression such a hyphen is the operator at the root, and what follows
it, a blank or a parenthesis, is the letter of no option; so the call is refused. All other
expressions are taken as they stand.

Results:
* `Tree.head?_tokenize_of_parse`: a text of a tree starts with the value at the root.
* `Expression.exists_delimiter_of_hyphen`: what follows a hyphen in front.
* `Expression.served_iff`: the expressions that a caller is served as they stand.
-/

namespace TreeText

/-! ## Hyphens in front -/

/-- The first token of a text that holds a tree is the value at the root. -/
theorem Tree.head?_tokenize_of_parse {text : String} {t : Tree String} (h : parse text = .ok t) :
    (tokenize text).head? = some (.value t.value) := by
  obtain ⟨-, htokens | ⟨hleaf, htokens⟩⟩ := parse_eq_ok_iff.mp h
  · rw [htokens, head?_tokens]
  · obtain ⟨v, cs⟩ := t
    have hcs : cs ≠ [] := by simpa [isLeaf_node] using hleaf
    rw [htokens, tokens_eq_cons_cons v hcs]
    rfl

/-- The value at the root of an expression starts with a hyphen only if it is a hyphen. -/
theorem Tree.Arithmetic.value_of_hyphen {t : Tree String} (h : t.Arithmetic) {cs : List Char}
    (hvalue : t.value.toList = '-' :: cs) : cs = [] := by
  cases h with
  | literal number =>
    obtain ⟨-, hdigits, -⟩ := literal?_eq_some_iff.mp number
    rw [value_node] at hvalue
    have hdigit := hdigits '-' (hvalue ▸ List.mem_cons_self ..)
    exact absurd hdigit (by decide)
  | application symbol count operands =>
    obtain ⟨c, hsymbol, -⟩ := Operator.exists_toList_symbol _
    rw [value_node, ← Operator.symbol_of_ofSymbol? symbol, hsymbol] at hvalue
    exact (List.cons.inj hvalue).2.symm

namespace Expression

/-- Behind a hyphen in front of an expression a blank or a parenthesis follows. -/
theorem exists_delimiter_of_hyphen {text : String} {x : Expression} (h : parse text = .ok x)
    (hhead : text.toList.head? = some '-') :
    ∃ c cs, text.toList = '-' :: c :: cs ∧ isDelimiter c = true := by
  obtain ⟨cs, htext⟩ := List.head?_eq_some_iff.mp hhead
  have htoken := Tree.head?_tokenize_of_parse (parse_eq_ok_iff_tree.mp h)
  rw [head?_tokenize htext rfl] at htoken
  have hvalue : x.tree.value.toList = '-' :: cs.takeWhile (!isDelimiter ·) := by
    rw [← Token.value.inj (Option.some.inj htoken), String.toList_ofList]
  have hrun := x.arithmetic.value_of_hyphen hvalue
  cases cs with
  | nil =>
    -- a hyphen alone is a leaf, and no literal
    have htext : text = "-" := String.toList_inj.mp htext
    have hinvalid : parse "-" = .error (.invalidExpression "-") := rfl
    rw [htext, hinvalid] at h
    nomatch h
  | cons c cs =>
    cases hc : isDelimiter c with
    | true => exact ⟨c, cs, htext, hc⟩
    | false =>
      rw [List.takeWhile_cons_of_pos (by simpa using hc)] at hrun
      nomatch hrun

end Expression

/-- No option has a blank or a parenthesis as its letter. -/
theorem Switch.ofLetter?_of_isDelimiter (l : Level) {c : Char} (h : isDelimiter c = true) :
    ofLetter? l c = none := by
  unfold ofLetter?
  split
  · nomatch h
  · nomatch h
  · nomatch h
  · nomatch h
  · rfl

/-! ## Operands as they stand -/

namespace Invocation

/-- The call of a command with one operand that does not look like an option. -/
theorem ofArguments_operand {group name : String} {l : Level} (h : Level.named? group name = some l)
    (hcommand : l.isGroup = false) (hlevel : l ≠ .completion) (hcount : 0 < l.operands) (n : Nat)
    {text : String} (hhead : text.toList.head? ≠ some '-') :
    ofArguments (debugFlags n ++ [group, name] ++ [text])
      = { State.atCommand (min n 255) group name l with operands := [text] }.command.map
          fun command => ⟨min n 255, command⟩ := by
  have hread : State.start.read (debugFlags n ++ [group, name] ++ [text])
      = .ok { State.atCommand (min n 255) group name l with pending := .operand text } := by
    rw [State.read_names h]
    exact State.read_operand (s := State.atCommand (min n 255) group name l) rfl hcommand hcount
      hhead []
  rw [ofArguments_of_settled (s := { State.atCommand (min n 255) group name l with
    operands := [text] })]
  · simp [State.atCommand, State.verbosity]
  · rw [hread]
    exact State.settle_pending_operand hlevel text

/-- An operand that starts with a hyphen and a delimiter is taken for an option that there is not. -/
theorem ofArguments_hyphen {group name : String} {l : Level} (h : Level.named? group name = some l)
    (n : Nat) {text : String} {c : Char} {cs : List Char} (htext : text.toList = '-' :: c :: cs)
    (hc : isDelimiter c = true) :
    ofArguments (debugFlags n ++ [group, name] ++ [text]) = .error .unknownArgument := by
  have hhyphen : c ≠ '-' := by
    rintro rfl
    nomatch hc
  rw [ofArguments, State.read_names h,
    State.read_unknown_letter htext hhyphen (Switch.ofLetter?_of_isDelimiter _ hc)]

end Invocation

/-! ## What a caller is promised -/

/-- The call for the value of an expression and the call for its rendering have told what they are
for: the value, unless the evaluation ends with a fault, and the rendering. -/
structure Expression.Served (x : Expression) (evaluation rendering : Outcome) : Prop where
  value : ∀ n, x.evaluate = .ok n → evaluation.exitCode = 0 ∧ evaluation.out = toString n.toInt ++ "\n"
  fault : ∀ e, x.evaluate = .error e → evaluation.exitCode = 70 ∧ evaluation.out = ""
  rendering : rendering.exitCode = 0 ∧ rendering.out = x.rendered ++ "\n"

namespace Expression

/-- The commands serve every expression that reaches them. -/
theorem served_of_calls {text : String} {x : Expression} (h : parse text = .ok x) (s : Surroundings)
    {evaluation rendering : List String} {m n : Nat}
    (hevaluation : Invocation.ofArguments evaluation = .ok ⟨m, some (.evaluate text)⟩)
    (hrendering : Invocation.ofArguments rendering = .ok ⟨n, some (.render text)⟩) :
    x.Served (.ofArguments s evaluation) (.ofArguments s rendering) := by
  have hvalue : (⟨m, some (.evaluate text)⟩ : Invocation).report s
      = .ofResult (fun v => toString v.toInt ++ "\n") x.evaluate := by
    show Report.ofResult _ (evaluateText text) = _
    rw [evaluateText, h]
  have hrendered : (⟨n, some (.render text)⟩ : Invocation).report s
      = .success (x.rendered ++ "\n") := by
    show Report.ofResult _ (renderText text) = _
    rw [renderText, h]
    rfl
  rw [Outcome.ofArguments_of_invocation hevaluation, Outcome.ofArguments_of_invocation hrendering]
  constructor
  · intro v hv
    rw [Invocation.exitCode_outcome, Invocation.out_outcome, hvalue, hv]
    exact ⟨rfl, rfl⟩
  · intro e he
    rw [Invocation.exitCode_outcome, Invocation.out_outcome, hvalue, he]
    exact ⟨exitCode_of_evaluate he, rfl⟩
  · rw [Invocation.exitCode_outcome, Invocation.out_outcome, hrendered]
    exact ⟨rfl, rfl⟩

/-- **The expressions that are served as they stand.** A caller who gives the text of an expression
as it stands is told its value, or the fault, and its rendering exactly if the text has no hyphen in
front. With a hyphen in front, both calls are refused because of an option that there is not. Behind
`--` every expression is served. -/
theorem served_iff {text : String} {x : Expression} (h : parse text = .ok x) (s : Surroundings) :
    (x.Served (.ofArguments s ["expr", "eval", text]) (.ofArguments s ["expr", "infix", text])
      ↔ text.toList.head? ≠ some '-') ∧
    (text.toList.head? = some '-' → ∀ name ∈ ["eval", "infix"],
      Invocation.ofArguments ["expr", name, text] = .error .unknownArgument ∧
        (Outcome.ofArguments s ["expr", name, text]).exitCode = 2 ∧
        (Outcome.ofArguments s ["expr", name, text]).out = "") ∧
    x.Served (.ofArguments s ["expr", "eval", "--", text])
      (.ofArguments s ["expr", "infix", "--", text]) := by
  have heval : Level.named? "expr" "eval" = some .evaluate := rfl
  have hinfix : Level.named? "expr" "infix" = some .render := rfl
  have hrefused (hhead : text.toList.head? = some '-') : ∀ name ∈ ["eval", "infix"],
      Invocation.ofArguments ["expr", name, text] = .error .unknownArgument := by
    obtain ⟨c, cs, htext, hc⟩ := exists_delimiter_of_hyphen h hhead
    intro name hname
    simp only [List.mem_cons, List.not_mem_nil, or_false] at hname
    obtain rfl | rfl := hname
    · exact Invocation.ofArguments_hyphen heval 0 htext hc
    · exact Invocation.ofArguments_hyphen hinfix 0 htext hc
  refine ⟨⟨fun hserved hhead => ?_, fun hhead => ?_⟩, fun hhead name hname => ?_, ?_⟩
  · have hcode := hserved.rendering.1
    rw [Outcome.ofArguments, hrefused hhead "infix" (by simp)] at hcode
    contradiction
  · exact served_of_calls h s
      (Invocation.ofArguments_operand heval rfl (by decide) (by decide) 0 hhead)
      (Invocation.ofArguments_operand hinfix rfl (by decide) (by decide) 0 hhead)
  · have hcall := hrefused hhead name hname
    rw [Outcome.ofArguments, hcall]
    exact ⟨rfl, rfl, rfl⟩
  · exact served_of_calls h s
      (Invocation.ofArguments_operands heval (by decide) 0 [text] (Nat.le_refl 1))
      (Invocation.ofArguments_operands hinfix (by decide) 0 [text] (Nat.le_refl 1))

/-- The difference of three and two. -/
def difference : Expression := ⟨.node "-" [.leaf "3", .leaf "2"], by decide⟩

/-- A blank in front is enough for a difference to be served. -/
theorem served_iff_difference :
    difference.Served (.ofArguments .bare ["expr", "eval", " -(3 2)"])
      (.ofArguments .bare ["expr", "infix", " -(3 2)"]) ∧
    (Outcome.ofArguments .bare ["expr", "eval", "-(3 2)"]).exitCode = 2 ∧
    difference.Served (.ofArguments .bare ["expr", "eval", "--", "-(3 2)"])
      (.ofArguments .bare ["expr", "infix", "--", "-(3 2)"]) := by
  have hblank : parse " -(3 2)" = .ok difference := rfl
  have hhyphen : parse "-(3 2)" = .ok difference := rfl
  obtain ⟨-, hrefused, hserved⟩ := served_iff hhyphen .bare
  obtain ⟨-, hcode, -⟩ := hrefused rfl "eval" (by simp)
  exact ⟨(served_iff hblank .bare).1.mpr (by decide), hcode, hserved⟩

/-- Without the blank it is not, although it has a value. -/
theorem not_served_difference :
    parse "-(3 2)" = .ok difference ∧ difference.evaluate = .ok 1 ∧
    (Outcome.ofArguments .bare ["expr", "eval", "-(3 2)"]).exitCode = 2 ∧
    ¬ difference.Served (.ofArguments .bare ["expr", "eval", "-(3 2)"])
      (.ofArguments .bare ["expr", "infix", "-(3 2)"]) := by
  have hvalue : difference.evaluate = .ok 1 := rfl
  have hcode : (Outcome.ofArguments .bare ["expr", "eval", "-(3 2)"]).exitCode = 2 := rfl
  refine ⟨rfl, hvalue, hcode, fun hserved => ?_⟩
  obtain ⟨hzero, -⟩ := hserved.value 1 hvalue
  rw [hcode] at hzero
  nomatch hzero

end Expression

end TreeText
