import TreeText.Proofs.Tree.Reading

/-!
# The language of tree texts

A text holds a tree exactly if its tokens are those of the tree, with the outermost opening
parenthesis left out or not, and the tree is not higher than the deepest level.

Results:
* `Tree.ofTokens_tokens`, `Tree.ofTokens_eraseIdx`: the tokens of a tree are read as the tree, or are
  refused as too deep.
* `Tree.eq_tokens_of_ofTokens`, `Tree.height_of_ofTokens`: only the tokens of a tree are read as it.
* `Tree.parse_eq_ok_iff`: the tree of a text is the one whose tokens the text has.
-/

namespace TreeText

namespace Reading

/-- The reader at the start of the block of a whole tree. -/
def first (root : String) : Reading := ⟨1, .start root, []⟩

theorem fits_first (root : String) : (first root).Fits 1 := fits_start (by decide) root

end Reading

namespace Tree

/-- The tree that a list of tokens makes. -/
def ofTokens (ts : List Token) : Except Error (Tree String) := ofStream ⟨none, ts⟩

theorem parse_eq_ofTokens (text : String) : parse text = ofTokens (tokenize text) := rfl

/-- The outcome for a whole tree: nothing may stand behind its block. -/
def whole : Except Error (Tree String × List Token) → Except Error (Tree String)
  | .error e => .error e
  | .ok (t, []) => .ok t
  | .ok (_, extra :: _) => .error (.unexpectedToken extra.text)

theorem whole_eq_ok_iff {r : Except Error (Tree String × List Token)} {t : Tree String} :
    whole r = .ok t ↔ r = .ok (t, []) := by
  match r with
  | .error e => simp [whole]
  | .ok (u, []) => simp [whole]
  | .ok (u, extra :: rest) => simp [whole]

/-! ## Lists of tokens -/

theorem ofTokens_of_not_value {token : Token} (h : ∀ v, token ≠ .value v) (ts : List Token) :
    ofTokens (token :: ts) = .error (.unexpectedToken token.text) := by
  cases token with
  | opening => rfl
  | closing => rfl
  | value v => exact absurd rfl (h v)

/-- The end of `ofTokens` once the block has been read. -/
theorem ofTokens_eq_whole {root : String} {body tokens : List Token} (hne : tokens ≠ [])
    (h : Block.ofStream root 1 ⟨none, tokens⟩
      = ((Reading.first root).read body).map fun r => (r.1, ⟨none, r.2⟩)) :
    ofTokens (.value root :: tokens) = whole ((Reading.first root).read body) := by
  cases tokens with
  | nil => exact absurd rfl hne
  | cons token tokens =>
    simp only [ofTokens, ofStream, TokenStream.next, TokenStream.hasNext, Option.isSome_none,
      List.isEmpty_cons, Bool.not_false, Bool.or_true, if_true, h]
    rcases (Reading.first root).read body with e | ⟨t, _ | ⟨extra, rest⟩⟩ <;> rfl

theorem ofTokens_opening (root : String) (body : List Token) :
    ofTokens (.value root :: .opening :: body) = whole ((Reading.first root).read body) :=
  ofTokens_eq_whole (List.cons_ne_nil _ _) (by
    rw [Block.ofStream, if_pos (by decide)]
    rfl)

/-- The outermost opening parenthesis may be left out. -/
theorem ofTokens_value_cons (root : String) {body : List Token} (hne : body ≠ [])
    (h : body.head? ≠ some .opening) :
    ofTokens (.value root :: body) = whole ((Reading.first root).read body) :=
  ofTokens_eq_whole hne (by
    rw [Block.ofStream, if_pos (by decide)]
    match body, h with
    | [], _ => rfl
    | .value v :: body, _ => rfl
    | .closing :: body, _ => rfl
    | .opening :: body, h => exact absurd rfl h)

/-! ## Tokens of trees -/

/-- The tokens of a node, with the opening parenthesis of its block apart from the rest. -/
theorem tokens_eq_cons_cons (v : String) {cs : List (Tree String)} (hcs : cs ≠ []) :
    (node v cs).tokens = .value v :: .opening :: (cs.flatMap tokens ++ [.closing]) := by
  rw [tokens_node v hcs]
  rfl

theorem isLeaf_node (v : String) (cs : List (Tree String)) : (node v cs).isLeaf = cs.isEmpty := rfl

theorem whole_read_children (root : String) {cs : List (Tree String)} (hcs : cs ≠ []) :
    whole ((Reading.first root).read (cs.flatMap tokens ++ [.closing])) =
      if (node root cs).height ≤ maxDepth then .ok (node root cs) else .error (.tooDeep maxDepth) := by
  rw [Reading.first, Reading.read_children (by decide) root hcs []]
  by_cases h : (node root cs).height ≤ maxDepth
  · rw [if_pos h, if_pos (by omega)]
    rfl
  · rw [if_neg h, if_neg (by omega)]
    rfl

theorem ofTokens_tokens (t : Tree String) :
    ofTokens t.tokens = if t.height ≤ maxDepth then .ok t else .error (.tooDeep maxDepth) := by
  obtain ⟨v, cs⟩ := t
  by_cases hcs : cs = []
  · subst hcs
    rfl
  · rw [tokens_eq_cons_cons v hcs, ofTokens_opening, whole_read_children v hcs]

theorem ofTokens_eraseIdx {t : Tree String} (h : t.isLeaf = false) :
    ofTokens (t.tokens.eraseIdx 1) =
      if t.height ≤ maxDepth then .ok t else .error (.tooDeep maxDepth) := by
  obtain ⟨v, cs⟩ := t
  have hcs : cs ≠ [] := by simpa [isLeaf_node] using h
  rw [tokens_eq_cons_cons v hcs, List.eraseIdx_cons_succ, List.eraseIdx_cons_zero,
    ofTokens_value_cons v (by simp) (head?_flatMap_tokens cs []), whole_read_children v hcs]

/-! ## Trees of lists of tokens -/

/-- A list of tokens that makes a tree is a value, or a value and its block with or without the
opening parenthesis. -/
theorem exists_body_of_ofTokens {ts : List Token} {t : Tree String} (h : ofTokens ts = .ok t) :
    ∃ root, (ts = [.value root] ∧ t = leaf root) ∨
      ∃ body, (ts = .value root :: .opening :: body ∨ ts = .value root :: body) ∧
        (Reading.first root).read body = .ok (t, []) := by
  match ts with
  | [] => nomatch h
  | .opening :: ts => nomatch h
  | .closing :: ts => nomatch h
  | [.value root] => cases h; exact ⟨root, .inl ⟨rfl, rfl⟩⟩
  | .value root :: .opening :: body =>
    rw [ofTokens_opening, whole_eq_ok_iff] at h
    exact ⟨root, .inr ⟨body, .inl rfl, h⟩⟩
  | .value root :: .value v :: body =>
    rw [ofTokens_value_cons root (by simp) (by simp), whole_eq_ok_iff] at h
    exact ⟨root, .inr ⟨.value v :: body, .inr rfl, h⟩⟩
  | .value root :: .closing :: body =>
    rw [ofTokens_value_cons root (by simp) (by simp), whole_eq_ok_iff] at h
    exact ⟨root, .inr ⟨.closing :: body, .inr rfl, h⟩⟩

theorem height_of_ofTokens {ts : List Token} {t : Tree String} (h : ofTokens ts = .ok t) :
    t.height ≤ maxDepth := by
  obtain ⟨root, ⟨-, rfl⟩ | ⟨body, -, hread⟩⟩ := exists_body_of_ofTokens h
  · exact Nat.zero_le _
  · have := Reading.height_of_read (Reading.fits_first root) hread
    omega

theorem eq_tokens_of_ofTokens {ts : List Token} {t : Tree String} (h : ofTokens ts = .ok t) :
    ts = t.tokens ∨ t.isLeaf = false ∧ ts = t.tokens.eraseIdx 1 := by
  obtain ⟨root, ⟨rfl, rfl⟩ | ⟨body, hts, hread⟩⟩ := exists_body_of_ofTokens h
  · exact .inl rfl
  · obtain ⟨cs, hcs, rfl, hbody⟩ := Reading.exists_children_of_read hread
    have htokens : .value root :: .opening :: body = (node root cs).tokens := by
      rw [tokens_eq_cons_cons root hcs, hbody]
    rcases hts with rfl | rfl
    · exact .inl htokens
    · exact .inr ⟨by simpa [isLeaf_node] using hcs, by rw [← htokens]; rfl⟩

/-- **The language of tree texts.** A text holds the tree `t` if and only if `t` is at most
`maxDepth` levels high and the tokens of the text are those of `t`, or those of `t` without the
opening parenthesis behind the value of its root. -/
theorem parse_eq_ok_iff {text : String} {t : Tree String} :
    parse text = .ok t ↔
      t.height ≤ maxDepth ∧
        (tokenize text = t.tokens ∨ t.isLeaf = false ∧ tokenize text = t.tokens.eraseIdx 1) := by
  rw [parse_eq_ofTokens]
  constructor
  · intro h
    exact ⟨height_of_ofTokens h, eq_tokens_of_ofTokens h⟩
  · rintro ⟨hheight, htokens | ⟨hleaf, htokens⟩⟩
    · rw [htokens, ofTokens_tokens, if_pos hheight]
    · rw [htokens, ofTokens_eraseIdx hleaf, if_pos hheight]

end Tree

end TreeText
