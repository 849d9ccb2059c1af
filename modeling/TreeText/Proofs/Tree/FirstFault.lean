import Mathlib.Order.Bounds.Defs
import TreeText.Proofs.Token.Spelling
import TreeText.Proofs.Tree.RoundTrip

/-!
# The first fault of a text

A text that holds no tree either stops too early, and then more tokens can complete it, or it has a
first token at which no continuation helps any more. The error names this token: what comes behind
it is never looked at, and what stands before it is not blamed.

Results:
* `Reading.exists_read_eq_ok`: inside a block, some tokens always complete the text.
* `Tree.hasOutcome`: a list of tokens makes a tree, or it can be completed, or it has a first
  faulty token.
* `parse_error_of_not_accepted`: the error of a text that holds no tree.
-/

namespace TreeText

/-- Whether a token is a value. -/
def Token.isValue : Token → Bool
  | value _ => true
  | _ => false

/-- The error for a token that cannot stand behind the tokens `before`. -/
def faultBehind (before : List Token) (token : Token) : Error :=
  if token = .opening ∧ before.getLast?.any Token.isValue = true then .tooDeep maxDepth
  else .unexpectedToken token.text

theorem faultBehind_cons_cons (t u : Token) (before : List Token) (token : Token) :
    faultBehind (t :: u :: before) token = faultBehind (u :: before) token := by
  rw [faultBehind, List.getLast?_cons_cons]
  rfl

theorem faultBehind_of_ne {token : Token} (h : token ≠ .opening) (before : List Token) :
    faultBehind before token = .unexpectedToken token.text :=
  if_neg fun h' => h h'.1

theorem faultBehind_closing (before : List Token) (token : Token) :
    faultBehind (before ++ [.closing]) token = .unexpectedToken token.text := by
  simp [faultBehind, Token.isValue]

/-! ## Readers and their last token -/

namespace Reading

/-- A value waits exactly while it is the last token read. -/
theorem waiting_step? {s s' : Reading} {token : Token} (h : s.step? token = some s') :
    s'.block.waiting.isSome = token.isValue := by
  rcases step?_cases h with ⟨v, rfl, rfl⟩ | ⟨v, rfl, -, -, rfl⟩ | ⟨parent, outer, rfl, -, -, rfl⟩
  · rfl
  · rfl
  · rfl

theorem waiting_run? {s s' : Reading} (last : Token) {tokens : List Token}
    (hs : s.block.waiting.isSome = last.isValue) (h : s.run? tokens = some s') :
    s'.block.waiting.isSome = (last :: tokens).getLast?.any Token.isValue := by
  induction tokens generalizing s last with
  | nil => cases h; simpa using hs
  | cons token tokens ih =>
    obtain ⟨s₁, hs₁, h⟩ := Option.bind_eq_some_iff.mp h
    rw [List.getLast?_cons_cons]
    exact ih token (waiting_step? hs₁) h

/-! ## Completing what has been read -/

theorem exists_read_replicate {s : Reading} (h : s.block.settled ≠ []) :
    ∃ t, s.read (List.replicate (s.outer.length + 1) .closing) = .ok (t, []) := by
  obtain ⟨depth, b, outer⟩ := s
  induction outer generalizing depth b with
  | nil =>
    have hempty : b.settled.isEmpty = false := by simpa using h
    exact ⟨b.toTree, by simp [read, Block.read, hempty]⟩
  | cons parent outer ih =>
    have hempty : b.settled.isEmpty = false := by simpa using h
    obtain ⟨t, ht⟩ := ih (depth - 1) (parent.addTree b.toTree) (List.cons_ne_nil _ _)
    refine ⟨t, ?_⟩
    rw [List.length_cons, List.replicate_succ, read_cons]
    simpa only [step?, hempty, Bool.false_eq_true, if_false] using ht

/-- Inside a block, a value and enough closing parentheses complete the text. -/
theorem exists_read_eq_ok (s : Reading) :
    ∃ tokens, (∀ t ∈ tokens, t.Occurs) ∧ ∃ t, s.read tokens = .ok (t, []) := by
  obtain ⟨t, ht⟩ := exists_read_replicate (s := { s with block := s.block.addValue "x" })
    (List.cons_ne_nil _ _)
  refine ⟨.value "x" :: List.replicate (s.outer.length + 1) .closing, fun u hu => ?_, t, ht⟩
  rcases List.mem_cons.mp hu with rfl | hu
  · exact Token.occurs_value_iff.mpr (by decide)
  · rw [List.eq_of_mem_replicate hu]
    exact Token.occurs_closing

end Reading

/-! ## Lists of tokens -/

namespace Tree

/-- Whether more tokens can follow so that the block of `root` becomes a whole tree. -/
def BodyCompletable (root : String) (body : List Token) : Prop :=
  ∃ us : List Token, (∀ u ∈ us, u.Occurs) ∧
    ∃ t, whole ((Reading.first root).read (body ++ us)) = .ok t

theorem bodyCompletable_of_run? {root : String} {body : List Token} {s : Reading}
    (h : (Reading.first root).run? body = some s) : BodyCompletable root body := by
  obtain ⟨us, hus, t, ht⟩ := s.exists_read_eq_ok
  exact ⟨us, hus, t, whole_eq_ok_iff.mpr (by rw [Reading.read_append h, ht])⟩

/-- The block of a whole tree is complete, or can be completed, or has a first faulty token. -/
theorem whole_cases (root : String) (body : List Token) :
    (∃ t, whole ((Reading.first root).read body) = .ok t) ∨
      (whole ((Reading.first root).read body) = .error .unexpectedEnd ∧ BodyCompletable root body) ∨
      ∃ before token rest, body = before ++ token :: rest ∧ BodyCompletable root before ∧
        ∀ us, whole ((Reading.first root).read (before ++ token :: us))
          = .error (faultBehind (.opening :: before) token) := by
  rcases (Reading.first root).run?_cases body with
    ⟨s, hrun⟩ | ⟨before, token, rest, s, rfl, hrun, hstop⟩
  · refine .inr (.inl ⟨?_, bodyCompletable_of_run? hrun⟩)
    rw [← List.append_nil body, Reading.read_append hrun]
    rfl
  · have hread : ∀ us, (Reading.first root).read (before ++ token :: us) = s.stop token us := by
      intro us
      rw [Reading.read_append hrun, Reading.read_cons, hstop]
    by_cases hend : token = .closing ∧ s.block.settled ≠ []
    · -- the block ends here, so the fault is the token behind it, if there is one
      obtain ⟨rfl, hsettled⟩ := hend
      have hok : ∀ us, (Reading.first root).read (before ++ .closing :: us)
          = .ok (s.block.toTree, us) := by
        intro us
        rw [hread us]
        exact Reading.stop_eq_ok_iff.mpr ⟨rfl, hsettled, rfl, rfl⟩
      cases rest with
      | nil => exact .inl ⟨s.block.toTree, by rw [hok]; rfl⟩
      | cons extra rest =>
        refine .inr (.inr ⟨before ++ [.closing], extra, rest, by simp, ⟨[], by simp,
          s.block.toTree, ?_⟩, fun us => ?_⟩)
        · rw [List.append_nil, hok]
          rfl
        · rw [List.append_assoc, List.singleton_append, hok, ← List.cons_append,
            faultBehind_closing]
          rfl
    · refine .inr (.inr ⟨before, token, rest, rfl, bodyCompletable_of_run? hrun, fun us => ?_⟩)
      rw [hread us, Reading.stop, if_neg hend, Reading.refusal, faultBehind,
        Reading.waiting_run? .opening rfl hrun]
      rfl

/-- Whether more tokens can follow so that the whole makes a tree. -/
def Completable (ts : List Token) : Prop :=
  ∃ us : List Token, (∀ u ∈ us, u.Occurs) ∧ ∃ t, ofTokens (ts ++ us) = .ok t

/-- Whether `ts` has a first token that no continuation can mend. -/
def HasFault (ts : List Token) : Prop :=
  ∃ before token rest, ts = before ++ token :: rest ∧ Completable before ∧
    ∀ us, ofTokens (before ++ token :: us) = .error (faultBehind before token)

theorem completable_nil : Completable [] := by
  have hx : TreeText.IsClean "x" := by decide
  exact ⟨[.value "x"], by simpa [Token.occurs_value_iff] using hx, leaf "x", rfl⟩

theorem completable_value (root : String) : Completable [.value root] :=
  ⟨[], by simp, leaf root, rfl⟩

theorem hasFault_of_not_value {token : Token} (h : ∀ v, token ≠ .value v) (ts : List Token) :
    HasFault (token :: ts) := by
  refine ⟨[], token, ts, rfl, completable_nil, fun us => ?_⟩
  rw [List.nil_append, ofTokens_of_not_value h]
  simp [faultBehind]

/-- What a list of tokens comes to: it makes a tree, or it stops too early, or it has a fault. -/
def HasOutcome (ts : List Token) : Prop :=
  (∃ t, ofTokens ts = .ok t) ∨ (ofTokens ts = .error .unexpectedEnd ∧ Completable ts) ∨ HasFault ts

theorem hasOutcome_opening (root : String) (body : List Token) :
    HasOutcome (.value root :: .opening :: body) := by
  have hcomplete : ∀ us, BodyCompletable root us → Completable (.value root :: .opening :: us) := by
    rintro us ⟨vs, hvs, t, ht⟩
    exact ⟨vs, hvs, t, by rw [List.cons_append, List.cons_append, ofTokens_opening, ht]⟩
  rcases whole_cases root body with ⟨t, ht⟩ | ⟨hend, h⟩ | ⟨before, token, rest, rfl, h, hfault⟩
  · exact .inl ⟨t, by rw [ofTokens_opening, ht]⟩
  · exact .inr (.inl ⟨by rw [ofTokens_opening, hend], hcomplete body h⟩)
  · refine .inr (.inr ⟨.value root :: .opening :: before, token, rest, rfl, hcomplete before h,
      fun us => ?_⟩)
    rw [List.cons_append, List.cons_append, ofTokens_opening, hfault us, faultBehind_cons_cons]

theorem hasOutcome_value_cons {next : Token} (hnext : next ≠ .opening) (root : String)
    (body : List Token) : HasOutcome (.value root :: next :: body) := by
  have hof : ∀ us, ofTokens (.value root :: next :: us)
      = whole ((Reading.first root).read (next :: us)) :=
    fun us => ofTokens_value_cons root (List.cons_ne_nil _ _) (by simpa using hnext)
  have hcomplete : ∀ us, BodyCompletable root (next :: us) →
      Completable (.value root :: next :: us) := by
    rintro us ⟨vs, hvs, t, ht⟩
    exact ⟨vs, hvs, t, by rw [List.cons_append, List.cons_append, hof]; exact ht⟩
  rcases whole_cases root (next :: body) with
    ⟨t, ht⟩ | ⟨hend, h⟩ | ⟨before, token, rest, hbody, h, hfault⟩
  · exact .inl ⟨t, by rw [hof, ht]⟩
  · exact .inr (.inl ⟨by rw [hof, hend], hcomplete body h⟩)
  · -- without an opening parenthesis, the token in front of the block is the root itself
    refine .inr (.inr ?_)
    cases before with
    | nil =>
      obtain ⟨rfl, rfl⟩ : token = next ∧ rest = body := by simpa [eq_comm] using hbody
      refine ⟨[.value root], token, rest, rfl, completable_value root, fun us => ?_⟩
      have := hfault us
      rw [List.nil_append, faultBehind_of_ne hnext] at this
      rw [List.singleton_append, hof, this, faultBehind_of_ne hnext]
    | cons first before =>
      obtain ⟨rfl, rfl⟩ : first = next ∧ body = before ++ token :: rest := by
        simpa [eq_comm] using hbody
      refine ⟨.value root :: first :: before, token, rest, rfl, hcomplete before h, fun us => ?_⟩
      have := hfault us
      rw [List.cons_append, faultBehind_cons_cons] at this
      rw [List.cons_append, List.cons_append, hof, this, faultBehind_cons_cons]

theorem hasOutcome (ts : List Token) : HasOutcome ts := by
  match ts with
  | [] => exact .inr (.inl ⟨rfl, completable_nil⟩)
  | .opening :: ts => exact .inr (.inr (hasFault_of_not_value (by simp) ts))
  | .closing :: ts => exact .inr (.inr (hasFault_of_not_value (by simp) ts))
  | [.value root] => exact .inl ⟨leaf root, rfl⟩
  | .value root :: .opening :: body => exact hasOutcome_opening root body
  | .value root :: .closing :: body => exact hasOutcome_value_cons (by simp) root body
  | .value root :: .value v :: body => exact hasOutcome_value_cons (by simp) root body

end Tree

/-! ## Texts -/

/-- Whether some text that holds a tree has these tokens. -/
def Accepted (ts : List Token) : Prop := ∃ text t, tokenize text = ts ∧ Tree.parse text = .ok t

theorem accepted_iff {ts : List Token} :
    Accepted ts ↔ (∀ t ∈ ts, t.Occurs) ∧ ∃ t, Tree.ofTokens ts = .ok t := by
  constructor
  · rintro ⟨text, t, rfl, ht⟩
    exact ⟨fun u hu => occurs_of_mem_tokenize hu, t, ht⟩
  · rintro ⟨hts, t, ht⟩
    obtain ⟨text, rfl⟩ := exists_tokenize_eq_iff.mpr hts
    exact ⟨text, t, rfl, ht⟩

theorem exists_accepted_of_completable {ts : List Token} (hts : ∀ t ∈ ts, t.Occurs)
    (h : Tree.Completable ts) : ∃ us, Accepted (ts ++ us) := by
  obtain ⟨us, hus, ht⟩ := h
  refine ⟨us, accepted_iff.mpr ⟨fun u hu => ?_, ht⟩⟩
  rcases List.mem_append.mp hu with hu | hu
  · exact hts u hu
  · exact hus u hu

theorem not_accepted_of_error {ts : List Token} {e : Error} (h : Tree.ofTokens ts = .error e) :
    ¬ Accepted ts := by
  intro hts
  obtain ⟨-, t, ht⟩ := accepted_iff.mp hts
  rw [h] at ht
  nomatch ht

/-- The index of the first faulty token is the least one up to which no continuation helps. -/
theorem isLeast_length_before {before : List Token} {token : Token} {rest : List Token}
    (hbefore : ∃ us, Accepted (before ++ us))
    (hfault : ∀ us, ¬ Accepted (before ++ token :: us)) :
    IsLeast {k | ∀ us, ¬ Accepted ((before ++ token :: rest).take (k + 1) ++ us)} before.length := by
  constructor
  · intro us
    have htake : (before ++ token :: rest).take (before.length + 1) = before ++ [token] := by
      rw [← List.singleton_append, ← List.append_assoc]
      exact List.take_left' (by simp)
    rw [htake, List.append_assoc]
    exact hfault us
  · intro k hk
    refine Nat.le_of_not_lt fun hlt => ?_
    obtain ⟨us, hus⟩ := hbefore
    have htake : (before ++ token :: rest).take (k + 1) = before.take (k + 1) :=
      List.take_append_of_le_length (by omega)
    refine hk (before.drop (k + 1) ++ us) ?_
    rwa [htake, ← List.append_assoc, List.take_append_drop]

/-- Whether the token at index `k` is an opening parenthesis right behind a value. -/
def OpensBehindValue (ts : List Token) (k : Nat) : Prop :=
  ts[k]? = some .opening ∧ 0 < k ∧ ∃ v, ts[k - 1]? = some (.value v)

theorem opensBehindValue_iff (before : List Token) (token : Token) (rest : List Token) :
    OpensBehindValue (before ++ token :: rest) before.length ↔
      token = .opening ∧ before.getLast?.any Token.isValue = true := by
  have htoken : (before ++ token :: rest)[before.length]? = some token := by simp
  rw [OpensBehindValue, htoken, Option.some_inj]
  refine and_congr_right fun _ => ?_
  by_cases hempty : before = []
  · subst hempty
    simp
  · have hpos : 0 < before.length := List.length_pos_iff.mpr hempty
    rw [List.getElem?_append_left (by omega), ← List.getLast?_eq_getElem?]
    cases before.getLast? with
    | none => simp
    | some last => cases last <;> simp [hpos, Token.isValue]

theorem faultBehind_of_opensBehindValue {before : List Token} {token : Token} {rest : List Token}
    (h : OpensBehindValue (before ++ token :: rest) before.length) :
    faultBehind before token = .tooDeep maxDepth :=
  if_pos ((opensBehindValue_iff before token rest).mp h)

theorem faultBehind_of_not_opensBehindValue {before : List Token} {token : Token}
    {rest : List Token} (h : ¬ OpensBehindValue (before ++ token :: rest) before.length) :
    faultBehind before token = .unexpectedToken token.text :=
  if_neg fun h' => h ((opensBehindValue_iff before token rest).mpr h')

theorem faultBehind_eq_or (before : List Token) (token : Token) :
    faultBehind before token = .tooDeep maxDepth ∨
      faultBehind before token = .unexpectedToken token.text := by
  unfold faultBehind
  split
  · exact .inl rfl
  · exact .inr rfl

theorem faultBehind_ne_unexpectedEnd (before : List Token) (token : Token) :
    faultBehind before token ≠ .unexpectedEnd := by
  rcases faultBehind_eq_or before token with h | h <;> simp [h]

/-- **The first point of failure.** Let the tokens of a text be those of no text that holds a tree.
The text stops too early if and only if more tokens can complete it. Otherwise there is a least index
up to which no continuation helps, and the error is about the token there: an opening parenthesis
right behind a value lies too deep, and every other token is unexpected. There are no other errors. -/
theorem parse_error_of_not_accepted {text : String} (h : ¬ Accepted (tokenize text)) :
    (Tree.parse text = .error .unexpectedEnd ↔ ∃ us, Accepted (tokenize text ++ us)) ∧
    ((¬ ∃ us, Accepted (tokenize text ++ us)) →
      ∃ k token, (tokenize text)[k]? = some token ∧
        IsLeast {j | ∀ us, ¬ Accepted ((tokenize text).take (j + 1) ++ us)} k ∧
        (OpensBehindValue (tokenize text) k → Tree.parse text = .error (.tooDeep maxDepth)) ∧
        (¬ OpensBehindValue (tokenize text) k →
          Tree.parse text = .error (.unexpectedToken token.text))) ∧
    (Tree.parse text = .error .unexpectedEnd ∨ Tree.parse text = .error (.tooDeep maxDepth) ∨
      ∃ token ∈ tokenize text, Tree.parse text = .error (.unexpectedToken token.text)) := by
  have hoccurs : ∀ t ∈ tokenize text, t.Occurs := fun t ht => occurs_of_mem_tokenize ht
  rw [Tree.parse_eq_ofTokens]
  generalize tokenize text = ts at h hoccurs ⊢
  rcases Tree.hasOutcome ts with
    hok | ⟨hend, hcompletable⟩ | ⟨before, token, rest, rfl, hbefore, hfault⟩
  · exact absurd (accepted_iff.mpr ⟨hoccurs, hok⟩) h
  · have hext := exists_accepted_of_completable hoccurs hcompletable
    exact ⟨iff_of_true hend hext, fun hno => absurd hext hno, .inl hend⟩
  · have hdead : ∀ us, ¬ Accepted (before ++ token :: us) :=
      fun us => not_accepted_of_error (hfault us)
    have hviable : ∃ us, Accepted (before ++ us) :=
      exists_accepted_of_completable (fun t ht => hoccurs t (List.mem_append_left _ ht)) hbefore
    have hext : ¬ ∃ us, Accepted (before ++ token :: rest ++ us) := by
      rintro ⟨us, hus⟩
      rw [List.append_assoc] at hus
      exact hdead (rest ++ us) hus
    rw [hfault rest]
    refine ⟨iff_of_false ?_ hext, fun _ => ⟨before.length, token, by simp,
      isLeast_length_before hviable hdead, fun hopens => ?_, fun hopens => ?_⟩, .inr ?_⟩
    · intro heq
      exact faultBehind_ne_unexpectedEnd before token (Except.error.inj heq)
    · rw [faultBehind_of_opensBehindValue hopens]
    · rw [faultBehind_of_not_opensBehindValue hopens]
    · rcases faultBehind_eq_or before token with heq | heq
      · exact .inl (by rw [heq])
      · exact .inr ⟨token, by simp, by rw [heq]⟩

/-- A text that stops too early, a stray block, and a block that lies too deep. -/
theorem parse_error_examples :
    (¬ Accepted (tokenize "a b") ∧ ∃ us, Accepted (tokenize "a b" ++ us)) ∧
      (¬ Accepted (tokenize "a (b) (c)") ∧ (¬ ∃ us, Accepted (tokenize "a (b) (c)" ++ us)) ∧
        ∃ k token, (tokenize "a (b) (c)")[k]? = some token ∧
          IsLeast {j | ∀ us, ¬ Accepted ((tokenize "a (b) (c)").take (j + 1) ++ us)} k) ∧
      ¬ Accepted (tokenize (Tree.tower "x" 1001).canonical) ∧
        ∃ k, OpensBehindValue (tokenize (Tree.tower "x" 1001).canonical) k ∧
          Tree.parse (Tree.tower "x" 1001).canonical = .error (.tooDeep maxDepth) := by
  have hshort : Tree.parse "a b" = .error .unexpectedEnd := rfl
  have hstray : Tree.parse "a (b) (c)" = .error (.unexpectedToken "(") := rfl
  have hdeep : Tree.parse (Tree.tower "x" 1001).canonical = .error (.tooDeep maxDepth) := by
    have hheight : ¬ (Tree.tower "x" 1001).height ≤ maxDepth := by
      rw [Tree.height_tower]
      decide
    rw [Tree.parse_canonical_of_isClean (Tree.isClean_tower (by decide) 1001), if_neg hheight]
  have hshort' : ¬ Accepted (tokenize "a b") := not_accepted_of_error hshort
  have hstray' : ¬ Accepted (tokenize "a (b) (c)") := not_accepted_of_error hstray
  have hdeep' : ¬ Accepted (tokenize (Tree.tower "x" 1001).canonical) :=
    not_accepted_of_error hdeep
  have hstrayDead : ¬ ∃ us, Accepted (tokenize "a (b) (c)" ++ us) := by
    rw [← (parse_error_of_not_accepted hstray').1, hstray]
    simp
  have hdeepDead : ¬ ∃ us, Accepted (tokenize (Tree.tower "x" 1001).canonical ++ us) := by
    rw [← (parse_error_of_not_accepted hdeep').1, hdeep]
    simp
  obtain ⟨k, token, htoken, hleast, -⟩ := (parse_error_of_not_accepted hstray').2.1 hstrayDead
  obtain ⟨l, token', -, -, htooDeep, hother⟩ :=
    (parse_error_of_not_accepted hdeep').2.1 hdeepDead
  have hopens : OpensBehindValue (tokenize (Tree.tower "x" 1001).canonical) l := by
    refine Classical.byContradiction fun hnot => ?_
    have hparse := hother hnot
    rw [hdeep] at hparse
    nomatch hparse
  exact ⟨⟨hshort', (parse_error_of_not_accepted hshort').1.mp hshort⟩,
    ⟨hstray', hstrayDead, k, token, htoken, hleast⟩, hdeep', l, hopens, htooDeep hopens⟩

end TreeText
