import TreeText.Command.Action
import TreeText.Proofs.Token.Spelling
import TreeText.Proofs.Tree.Display
import TreeText.Proofs.Tree.Language

/-!
# Trees through their texts

The canonical form of a tree is read as the tree again if every value is shown as a clean text and
the tree keeps to the limit. These conditions cannot be dropped, because every tree that is read from
a text meets them.

Results:
* `Tree.tokenize_canonical`: the canonical form of a tree with clean values has the tokens of the tree.
* `Tree.parse_canonical_of_isClean`: reading it gives the tree of the displayed values.
* `Tree.isClean_of_parse`: a tree that was read has clean values.
* `normalizeText_normal`: a normal text is its own normal text.
* `Tree.parse_canonical`: what is read from a canonical form, and when it is the tree itself.
-/

namespace TreeText

namespace Tree

universe u

variable {α : Type u}

/-- Whether every value is shown as a clean text. -/
def IsClean [ToString α] (t : Tree α) : Prop := ∀ v ∈ t.values, TreeText.IsClean (toString v)

instance [ToString α] (t : Tree α) : Decidable t.IsClean :=
  decidable_of_iff (t.values.all (fun v => decide (TreeText.IsClean (toString v))) = true)
    (by simp [IsClean])

theorem isClean_node [ToString α] {v : α} {cs : List (Tree α)} :
    (node v cs).IsClean ↔ TreeText.IsClean (toString v) ∧ ∀ c ∈ cs, c.IsClean := by
  unfold IsClean
  rw [values_node, List.forall_mem_cons]
  simp only [List.mem_flatMap]
  constructor
  · rintro ⟨hv, hcs⟩
    exact ⟨hv, fun c hc w hw => hcs w ⟨c, hc, hw⟩⟩
  · rintro ⟨hv, hcs⟩
    refine ⟨hv, ?_⟩
    rintro w ⟨c, hc, hw⟩
    exact hcs c hc w hw

/-! ## Tokens of canonical forms -/

theorem tokenize_block (a b : String) :
    tokenize (a ++ " (" ++ b ++ ")") = tokenize a ++ .opening :: tokenize b ++ [.closing] := by
  have hspace : tokenize (a ++ " ") = tokenize a := by
    simpa [tokenize_empty] using tokenize_append_space a ""
  have hopening := tokenize_append_delimiter (a ++ " ") (b ++ ")") (d := '(') rfl
  have hclosing := tokenize_append_delimiter b "" (d := ')') rfl
  have hb : b ++ String.singleton ')' ++ "" = b ++ ")" := String.toList_inj.mp (by simp)
  have hab : a ++ " " ++ String.singleton '(' ++ (b ++ ")") = a ++ " (" ++ b ++ ")" :=
    String.toList_inj.mp (by simp)
  rw [hab, hspace, ← hb, hclosing] at hopening
  simpa [tokenize_empty, Token.ofDelimiter?] using hopening

theorem tokenize_canonical [ToString α] {t : Tree α} (h : t.IsClean) :
    tokenize t.canonical = (t.map toString).tokens := by
  induction t with
  | node v cs ih =>
    obtain ⟨hv, hcs⟩ := isClean_node.mp h
    by_cases hne : cs = []
    · subst hne
      exact tokenize_of_isClean hv
    · have hmap : cs.map (map toString) ≠ [] := by simpa using hne
      have htokens : (cs.map canonical).flatMap tokenize = (cs.map (map toString)).flatMap tokens := by
        rw [List.flatMap_map, List.flatMap_map, List.flatMap_def, List.flatMap_def,
          List.map_congr_left fun c hc => ih c hc (hcs c hc)]
      rw [canonical_node v hne, tokenize_block, tokenize_of_isClean hv, tokenize_intercalate, htokens,
        map_node, tokens_node _ hmap]
      rfl

/-- The canonical form of a tree with clean values is read as the tree of the displayed values,
unless this tree is too high. -/
theorem parse_canonical_of_isClean [ToString α] {t : Tree α} (h : t.IsClean) :
    parse t.canonical =
      if t.height ≤ maxDepth then .ok (t.map toString) else .error (.tooDeep maxDepth) := by
  rw [parse_eq_ofTokens, tokenize_canonical h, ofTokens_tokens, height_map]

/-! ## Values of trees that were read -/

theorem value_mem_tokens {t : Tree String} {v : String} (h : v ∈ t.values) : .value v ∈ t.tokens := by
  induction t with
  | node w cs ih =>
    rw [values_node] at h
    by_cases hne : cs = []
    · subst hne
      obtain rfl : v = w := by simpa using h
      exact List.mem_singleton.mpr rfl
    · rw [tokens_node w hne]
      rcases List.mem_cons.mp h with rfl | h
      · exact List.mem_cons_self ..
      · obtain ⟨c, hc, h⟩ := List.mem_flatMap.mp h
        have := ih c hc h
        simp only [List.cons_append, List.mem_cons, List.mem_append, List.mem_flatMap]
        exact .inr (.inr (.inl ⟨c, hc, this⟩))

theorem value_mem_of_ofTokens {ts : List Token} {t : Tree String} (h : ofTokens ts = .ok t)
    {v : String} (hv : v ∈ t.values) : .value v ∈ ts := by
  have hmem := value_mem_tokens hv
  rcases eq_tokens_of_ofTokens h with rfl | ⟨hleaf, rfl⟩
  · exact hmem
  · obtain ⟨root, cs⟩ := t
    have hcs : cs ≠ [] := by simpa [isLeaf_node] using hleaf
    rw [tokens_eq_cons_cons root hcs] at hmem ⊢
    simpa using hmem

theorem isClean_of_parse {text : String} {t : Tree String} (h : parse text = .ok t) : t.IsClean :=
  fun _ hv => isClean_of_value_mem_tokenize (value_mem_of_ofTokens h hv)

theorem height_of_parse {text : String} {t : Tree String} (h : parse text = .ok t) :
    t.height ≤ maxDepth :=
  height_of_ofTokens h

theorem parse_canonical_of_parse {text : String} {t : Tree String} (h : parse text = .ok t) :
    parse t.canonical = .ok t := by
  rw [parse_canonical_of_isClean (isClean_of_parse h), if_pos (height_of_parse h), map_toString]

theorem parse_canonical_eq_ok_iff {t : Tree String} :
    parse t.canonical = .ok t ↔ t.IsClean ∧ t.height ≤ maxDepth := by
  constructor
  · intro h
    exact ⟨isClean_of_parse h, height_of_parse h⟩
  · rintro ⟨hclean, hheight⟩
    rw [parse_canonical_of_isClean hclean, if_pos hheight, map_toString]

end Tree

theorem normalizeText_eq_ok_iff {text s : String} :
    normalizeText text = .ok s ↔ ∃ t, Tree.parse text = .ok t ∧ t.canonical = s := by
  unfold normalizeText
  cases Tree.parse text <;> simp [Except.map]

/-- A normal text holds the tree of the text that it was made of, and is its own normal text. -/
theorem normalizeText_normal {text s : String} (h : normalizeText text = .ok s) :
    Tree.parse s = Tree.parse text ∧ normalizeText s = .ok s := by
  obtain ⟨t, ht, rfl⟩ := normalizeText_eq_ok_iff.mp h
  have hparse := Tree.parse_canonical_of_parse ht
  exact ⟨by rw [hparse, ht], normalizeText_eq_ok_iff.mpr ⟨t, hparse, rfl⟩⟩

namespace Tree

universe u

theorem isClean_int64 (t : Tree Int64) : t.IsClean := fun n _ => TreeText.isClean_int64 n

/-- **Round trip through text.** Reading the canonical form of a tree of texts gives the tree back
if and only if all values are clean and the tree keeps to the limit; if only the limit is exceeded,
the text is refused as too deep. Every tree that was read meets both conditions, so normal texts are
fixed. A tree of other values comes back with its displayed values, integers for instance. -/
theorem parse_canonical :
    (∀ t : Tree String,
      (parse t.canonical = .ok t ↔ t.IsClean ∧ t.height ≤ maxDepth) ∧
        (t.IsClean → maxDepth < t.height → parse t.canonical = .error (.tooDeep maxDepth))) ∧
    (∀ (text : String) (t : Tree String),
      parse text = .ok t → t.IsClean ∧ t.height ≤ maxDepth) ∧
    (∀ text s : String, normalizeText text = .ok s →
      parse s = parse text ∧ normalizeText s = .ok s) ∧
    (∀ (α : Type u) [ToString α] (t : Tree α), t.IsClean → t.height ≤ maxDepth →
      parse t.canonical = .ok (t.map toString)) ∧
    (∀ t : Tree Int64, t.IsClean) := by
  refine ⟨fun t => ⟨parse_canonical_eq_ok_iff, fun hclean hheight => ?_⟩, fun text t h => ?_,
    fun text s h => normalizeText_normal h, fun α _ t hclean hheight => ?_, isClean_int64⟩
  · rw [parse_canonical_of_isClean hclean, if_neg (by omega)]
  · exact ⟨isClean_of_parse h, height_of_parse h⟩
  · rw [parse_canonical_of_isClean hclean, if_pos hheight]

/-- A tree with one node at each depth up to `n`. -/
def tower (v : String) : Nat → Tree String
  | 0 => leaf v
  | n + 1 => node v [tower v n]

theorem height_tower (v : String) (n : Nat) : (tower v n).height = n := by
  induction n with
  | zero => rfl
  | succ n ih =>
    rw [tower, height_node, List.map_singleton, ih]
    rfl

theorem isClean_tower {v : String} (hv : TreeText.IsClean v) (n : Nat) : (tower v n).IsClean := by
  induction n with
  | zero => exact isClean_node.mpr ⟨hv, fun _ hc => (nomatch hc)⟩
  | succ n ih =>
    refine isClean_node.mpr ⟨hv, fun c hc => ?_⟩
    rw [List.mem_singleton.mp hc]
    exact ih

/-- A family, a tree one level too high, and integers. -/
theorem parse_canonical_family :
    (node "a" [leaf "b", node "c" [leaf "d"]]).IsClean ∧
      (node "a" [leaf "b", node "c" [leaf "d"]]).height ≤ maxDepth ∧
      parse "a (b c (d))" = .ok (node "a" [leaf "b", node "c" [leaf "d"]]) ∧
      normalizeText "a b c (d))" = .ok "a (b c (d))" ∧
      normalizeText "a (b c (d))" = .ok "a (b c (d))" ∧
      parse (tower "x" 1001).canonical = .error (.tooDeep maxDepth) ∧
      parse (node (7 : Int64) [leaf (-1)]).canonical = .ok (node "7" [leaf "-1"]) := by
  have hclean : (node "a" [leaf "b", node "c" [leaf "d"]]).IsClean := by decide
  have hheight : (node "a" [leaf "b", node "c" [leaf "d"]]).height ≤ maxDepth := by decide
  have hnormal : normalizeText "a b c (d))" = .ok "a (b c (d))" :=
    normalizeText_eq_ok_iff.mpr ⟨node "a" [leaf "b", node "c" [leaf "d"]], rfl, by decide⟩
  have htall : maxDepth < (tower "x" 1001).height := by
    rw [height_tower]
    decide
  exact ⟨hclean, hheight, (parse_canonical.{0}.1 _).1.mpr ⟨hclean, hheight⟩, hnormal,
    (parse_canonical.{0}.2.2.1 _ _ hnormal).2,
    (parse_canonical.{0}.1 _).2 (isClean_tower (by decide) 1001) htall,
    parse_canonical.2.2.2.1 Int64 _ (parse_canonical.{0}.2.2.2.2 _) (by decide)⟩

end Tree

end TreeText
