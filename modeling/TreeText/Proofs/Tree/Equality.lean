import TreeText.Proofs.Tree.RoundTrip

/-!
# Equality by canonical forms

The tokens of a tree determine it, however high it is: a tree ends where no opening parenthesis
follows its value, or at the closing parenthesis of its block. A canonical form with clean values has
the tokens of its tree, so trees with clean values are equal exactly when they are written alike. The
limit on the height plays no part in this, as nothing is read.

Results:
* `Tree.delimited`: the tokens of a tree can be told from those behind it.
* `Tree.tokens_injective`: different trees have different tokens.
* `Tree.canonical_inj_of_isClean`: the canonical form determines the displayed values and the shape.
* `Tree.beq_iff_canonical_eq`: equality of trees, and of the trees of two texts, by canonical forms.
-/

namespace TreeText

namespace Tree

universe u

variable {α : Type u}

/-! ## Trees by their tokens -/

/-- Whether the tokens of a tree can be told from those behind it. What follows must not look like
the block of the root. -/
def Delimited (t : Tree String) : Prop :=
  ∀ {u : Tree String} {rest rest' : List Token}, rest.head? ≠ some .opening →
    rest'.head? ≠ some .opening → t.tokens ++ rest = u.tokens ++ rest' → t = u ∧ rest = rest'

/-- Children that are delimited one by one are so as a list, up to the end of their block. -/
theorem flatMap_tokens_append_inj {cs ds : List (Tree String)} {rest rest' : List Token}
    (hcs : ∀ c ∈ cs, c.Delimited)
    (h : cs.flatMap tokens ++ .closing :: rest = ds.flatMap tokens ++ .closing :: rest') :
    cs = ds ∧ rest = rest' := by
  have closing_ne (d : Tree String) (ds : List (Tree String)) (rest rest' : List Token) :
      .closing :: rest ≠ (d :: ds).flatMap tokens ++ rest' := by
    intro heq
    have hhead := congrArg List.head? heq
    rw [List.flatMap_cons, List.append_assoc, List.head?_append, head?_tokens] at hhead
    cases hhead
  induction cs generalizing ds with
  | nil =>
    cases ds with
    | nil => exact ⟨rfl, List.tail_eq_of_cons_eq h⟩
    | cons d ds => exact absurd h (closing_ne d ds rest _)
  | cons c cs ih =>
    cases ds with
    | nil => exact absurd h.symm (closing_ne c cs rest' _)
    | cons d ds =>
      rw [List.flatMap_cons, List.flatMap_cons, List.append_assoc, List.append_assoc] at h
      obtain ⟨rfl, hbehind⟩ := hcs c (List.mem_cons_self ..) (head?_flatMap_tokens cs rest)
        (head?_flatMap_tokens ds rest') h
      obtain ⟨rfl, hrests⟩ := ih (fun x hx => hcs x (List.mem_cons_of_mem c hx)) hbehind
      exact ⟨rfl, hrests⟩

theorem delimited (t : Tree String) : t.Delimited := by
  induction t with
  | node v cs ih =>
    intro u rest rest' hrest hrest' h
    obtain ⟨w, ds⟩ := u
    by_cases hcs : cs = [] <;> by_cases hds : ds = []
    · subst hcs hds
      obtain ⟨hvalue, hrests⟩ := List.cons.inj h
      cases hvalue
      exact ⟨rfl, hrests⟩
    · -- what follows the leaf on the left would be the block on the right
      subst hcs
      rw [tokens_eq_cons_cons w hds] at h
      obtain ⟨-, hbehind⟩ := List.cons.inj h
      exact absurd (congrArg List.head? hbehind) hrest
    · subst hds
      rw [tokens_eq_cons_cons v hcs] at h
      obtain ⟨-, hbehind⟩ := List.cons.inj h
      exact absurd (congrArg List.head? hbehind).symm hrest'
    · rw [tokens_eq_cons_cons v hcs, tokens_eq_cons_cons w hds] at h
      simp only [List.cons_append, List.append_assoc, List.nil_append, List.cons.injEq,
        Token.value.injEq, true_and] at h
      obtain ⟨rfl, hblocks⟩ := h
      obtain ⟨rfl, hrests⟩ := flatMap_tokens_append_inj ih hblocks
      exact ⟨rfl, hrests⟩

theorem tokens_injective {t u : Tree String} (h : t.tokens = u.tokens) : t = u := by
  have happend : t.tokens ++ [] = u.tokens ++ [] := by rw [h]
  exact (t.delimited (by simp) (by simp) happend).1

/-! ## Trees by their canonical forms -/

theorem canonical_inj_of_isClean [ToString α] {t u : Tree α} (ht : t.IsClean) (hu : u.IsClean)
    (h : t.canonical = u.canonical) : t.map toString = u.map toString := by
  apply tokens_injective
  rw [← tokenize_canonical ht, ← tokenize_canonical hu, h]

theorem beq_iff_canonical_eq_of_isClean [BEq α] [ToString α] [LawfulDisplay α] {t u : Tree α}
    (ht : t.IsClean) (hu : u.IsClean) : (t == u) = true ↔ t.canonical = u.canonical := by
  rw [beq_iff_map_toString_eq]
  constructor
  · intro h
    rw [← canonical_map_toString t, h, canonical_map_toString]
  · exact canonical_inj_of_isClean ht hu

end Tree

/-! ## Comparisons -/

theorem exists_compareTexts_eq_ok_iff {left right : String} :
    (∃ c, compareTexts left right = .ok c)
      ↔ (∃ l, Tree.parse left = .ok l) ∧ ∃ r, Tree.parse right = .ok r := by
  unfold compareTexts
  cases Tree.parse left <;> cases Tree.parse right <;> simp

theorem compareTexts_eq_error_iff {left right : String} {e : Error} :
    compareTexts left right = .error e
      ↔ Tree.parse left = .error e ∨
        (∃ l, Tree.parse left = .ok l) ∧ Tree.parse right = .error e := by
  unfold compareTexts
  cases Tree.parse left <;> cases Tree.parse right <;> simp

theorem equal_iff_of_compareTexts {left right : String} {c : Comparison}
    (h : compareTexts left right = .ok c) :
    c.equal = true ↔ normalizeText left = normalizeText right := by
  obtain ⟨l, r, hl, hr, rfl⟩ := compareTexts_eq_ok_iff.mp h
  have hcanonical := Tree.beq_iff_canonical_eq_of_isClean (Tree.isClean_of_parse hl)
    (Tree.isClean_of_parse hr)
  rw [normalizeText, normalizeText, hl, hr]
  simpa [Comparison.ofTrees, Except.map] using hcanonical

theorem hashes_eq_of_equal {left right : String} {c : Comparison}
    (h : compareTexts left right = .ok c) (hequal : c.equal = true) : c.leftHash = c.rightHash := by
  obtain ⟨l, r, -, -, rfl⟩ := compareTexts_eq_ok_iff.mp h
  have htrees : l = r := eq_of_beq hequal
  rw [htrees]
  rfl

namespace Tree

universe u

/-- **Canonical forms decide equality.** Trees whose values are clean, of any height, are equal if
and only if their canonical forms are. Two texts can be compared if and only if both hold trees, and
otherwise the error is that of the left text, or else that of the right one; the comparison finds the
trees equal if and only if the two texts have one normal text, and then the hash codes are equal. -/
theorem beq_iff_canonical_eq :
    (∀ (α : Type u) [BEq α] [ToString α] [LawfulDisplay α] (t u : Tree α), t.IsClean → u.IsClean →
      ((t == u) = true ↔ t.canonical = u.canonical)) ∧
    ∀ left right : String,
      ((∃ c, compareTexts left right = .ok c)
        ↔ (∃ l, parse left = .ok l) ∧ ∃ r, parse right = .ok r) ∧
      (∀ e, compareTexts left right = .error e
        ↔ parse left = .error e ∨ (∃ l, parse left = .ok l) ∧ parse right = .error e) ∧
      ∀ c, compareTexts left right = .ok c →
        (c.equal = true ↔ normalizeText left = normalizeText right) ∧
          (c.equal = true → c.leftHash = c.rightHash) := by
  refine ⟨fun α _ _ _ t u ht hu => beq_iff_canonical_eq_of_isClean ht hu, fun left right =>
    ⟨exists_compareTexts_eq_ok_iff, fun e => compareTexts_eq_error_iff, fun c hc =>
      ⟨equal_iff_of_compareTexts hc, hashes_eq_of_equal hc⟩⟩⟩

/-- Two trees beyond the limit, trees of integers, and a comparison of texts with other blanks. -/
theorem beq_iff_canonical_eq_examples :
    (maxDepth < (tower "x" 1001).height ∧ (tower "x" 1001).IsClean ∧ (tower "x" 1002).IsClean ∧
        (tower "x" 1001).canonical ≠ (tower "x" 1002).canonical) ∧
      (node 1 [leaf (-1)] : Tree Int64).canonical ≠ (node 1 [leaf 1] : Tree Int64).canonical ∧
      ∃ c, compareTexts "a (b c)" " a(b  c) " = .ok c ∧ c.equal = true ∧
        normalizeText "a (b c)" = normalizeText " a(b  c) " ∧ c.leftHash = c.rightHash := by
  obtain ⟨htrees, htexts⟩ := beq_iff_canonical_eq.{0}
  have hclean (n : Nat) : (tower "x" n).IsClean := isClean_tower (by decide) n
  have hheights : ¬ (tower "x" 1001 == tower "x" 1002) = true := by
    intro h
    have := congrArg height (eq_of_beq h)
    rw [height_tower, height_tower] at this
    omega
  refine ⟨⟨?_, hclean 1001, hclean 1002, ?_⟩, ?_, ?_⟩
  · rw [height_tower]
    decide
  · exact fun h => hheights ((htrees String _ _ (hclean 1001) (hclean 1002)).mpr h)
  · exact fun h => absurd ((htrees Int64 _ _ (isClean_int64 _) (isClean_int64 _)).mpr h) (by decide)
  · have hc : compareTexts "a (b c)" " a(b  c) "
        = .ok (.ofTrees (node "a" [leaf "b", leaf "c"]) (node "a" [leaf "b", leaf "c"])) :=
      compareTexts_eq_ok_iff.mpr ⟨_, _, rfl, rfl, rfl⟩
    obtain ⟨hequal, hhashes⟩ := (htexts _ _).2.2 _ hc
    exact ⟨_, hc, beq_self_eq_true _, hequal.mp (beq_self_eq_true _),
      hhashes (beq_self_eq_true _)⟩

end Tree

end TreeText
