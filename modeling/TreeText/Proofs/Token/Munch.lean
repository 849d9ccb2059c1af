import TreeText.Proofs.Token.Spelling

/-!
# Maximal munch

The tokens of a text are read by maximal munch: a value goes on until a delimiter or the end of the
text stops it. As laws: the empty text holds nothing, a text without delimiters is one value, and a
delimiter cuts a text into two parts that are read on their own. Every text can be taken apart with
these laws, so no other way to read texts follows them, and facts about tokens can be proved along the
delimiters of a text.

Results:
* `cut_induction`: what holds of pieces without delimiters and is kept by delimiters holds of texts.
* `MunchesMaximally.eq_tokenize`: there is one way to read texts by maximal munch.
* `join_text_tokenize`: reading drops the blanks and nothing else.
* `tokenize_munches_maximally`: the laws, and what follows from them.
-/

namespace TreeText

/-! ## Cutting a text -/

/-- A text that holds a delimiter can be cut there. -/
theorem exists_cut {text : String} (h : ∃ c ∈ text.toList, isDelimiter c = true) :
    ∃ a d b, isDelimiter d = true ∧ text = a ++ String.singleton d ++ b := by
  obtain ⟨c, hmem, hc⟩ := h
  obtain ⟨as, bs, hsplit⟩ := List.append_of_mem hmem
  refine ⟨String.ofList as, c, String.ofList bs, hc, ?_⟩
  rw [← String.toList_inj]
  simp [hsplit]

/-- What holds of the empty text and of clean values, and of a text cut by a delimiter if it holds of
both parts, holds of every text. -/
theorem cut_induction {P : String → Prop} (empty : P "") (value : ∀ v, IsClean v → P v)
    (cut : ∀ a d b, isDelimiter d = true → P a → P b → P (a ++ String.singleton d ++ b))
    (text : String) : P text := by
  -- The parts are shorter than the text.
  induction hlength : text.length using Nat.strongRecOn generalizing text with
  | ind n ih =>
    by_cases h : ∃ c ∈ text.toList, isDelimiter c = true
    · obtain ⟨a, d, b, hd, rfl⟩ := exists_cut h
      have hsum : a.length + 1 + b.length = n := by simpa using hlength
      exact cut a d b hd (ih a.length (by omega) a rfl) (ih b.length (by omega) b rfl)
    · by_cases hne : text = ""
      · exact hne ▸ empty
      · exact value text ⟨hne, fun c hc => by simpa using fun hdel => h ⟨c, hc, hdel⟩⟩

/-! ## The laws -/

/-- The laws of reading by maximal munch. -/
structure MunchesMaximally (read : String → List Token) : Prop where
  /-- Nothing is read from the empty text. -/
  empty : read "" = []
  /-- A text without delimiters is one value. -/
  value : ∀ u, u ≠ "" → (∀ c ∈ u.toList, isDelimiter c = false) → read u = [.value u]
  /-- A delimiter cuts a text into two parts that are read on their own. -/
  cut : ∀ a b d, isDelimiter d = true →
    read (a ++ String.singleton d ++ b) = read a ++ (Token.ofDelimiter? d).toList ++ read b

theorem munchesMaximally_tokenize : MunchesMaximally tokenize where
  empty := tokenize_empty
  value _ hne h := tokenize_value hne h
  cut a b _ h := tokenize_append_delimiter a b h

theorem MunchesMaximally.eq_tokenize {read : String → List Token} (h : MunchesMaximally read) :
    read = tokenize := by
  funext text
  induction text using cut_induction with
  | empty => rw [h.empty, tokenize_empty]
  | value v hv => rw [h.value v hv.1 hv.2, tokenize_of_isClean hv]
  | cut a d b hd ha hb => rw [h.cut a b d hd, ha, hb, tokenize_append_delimiter a b hd]

/-! ## What is kept -/

theorem isDelimiter_iff {c : Char} :
    isDelimiter c = true ↔ c ∈ [' ', '\t', '\n', '\r', '\x0c', '(', ')'] := by
  simp [isDelimiter, isBlank, or_assoc]

theorem ofDelimiter?_of_isBlank {d : Char} (h : isBlank d = true) : Token.ofDelimiter? d = none := by
  simp only [isBlank, Bool.or_eq_true, decide_eq_true_eq] at h
  rcases h with (((rfl | rfl) | rfl) | rfl) | rfl <;> rfl

/-- The characters of a text that are no blanks. -/
def withoutBlanks (text : String) : String := String.ofList (text.toList.filter fun c => !isBlank c)

theorem withoutBlanks_append (a b : String) :
    withoutBlanks (a ++ b) = withoutBlanks a ++ withoutBlanks b := by
  simp [withoutBlanks]

theorem withoutBlanks_of_isClean {v : String} (h : IsClean v) : withoutBlanks v = v := by
  have hkept : ∀ c ∈ v.toList, (!isBlank c) = true := by
    intro c hc
    have hdelimiter := h.2 c hc
    simp only [isDelimiter, Bool.or_eq_false_iff] at hdelimiter
    rw [hdelimiter.1.1, Bool.not_false]
  rw [withoutBlanks, List.filter_eq_self.mpr hkept, String.ofList_toList]

theorem withoutBlanks_delimiter {d : Char} (h : isDelimiter d = true) :
    withoutBlanks (String.singleton d)
      = String.join ((Token.ofDelimiter? d).toList.map Token.text) := by
  rw [isDelimiter_iff] at h
  simp only [List.mem_cons, List.not_mem_nil, or_false] at h
  rcases h with rfl | rfl | rfl | rfl | rfl | rfl | rfl <;> rfl

theorem join_text_tokenize (text : String) :
    String.join ((tokenize text).map Token.text) = withoutBlanks text := by
  induction text using cut_induction with
  | empty => rfl
  | value v hv =>
    rw [tokenize_of_isClean hv, withoutBlanks_of_isClean hv]
    simp [Token.text]
  | cut a d b hd ha hb =>
    rw [tokenize_append_delimiter a b hd, List.map_append, List.map_append, String.join_append,
      String.join_append, ha, hb, withoutBlanks_append, withoutBlanks_append,
      withoutBlanks_delimiter hd]

/-- **Tokens are read by maximal munch.** The delimiters are the five blanks, which are no tokens, and
the parentheses, which are one each. Reading follows the laws of maximal munch, and no other way to
read texts does. Hence values are not empty and hold no delimiter, the texts of the tokens in a row
are the text without its blanks, and a list of tokens with such values is read back from its
spelling. -/
theorem tokenize_munches_maximally :
    ((∀ c, isDelimiter c = true ↔ c ∈ [' ', '\t', '\n', '\r', '\x0c', '(', ')']) ∧
      Token.ofDelimiter? '(' = some .opening ∧ Token.ofDelimiter? ')' = some .closing ∧
      ∀ d, isBlank d = true → Token.ofDelimiter? d = none) ∧
    (MunchesMaximally tokenize ∧ ∀ read, MunchesMaximally read → read = tokenize) ∧
    (∀ text v, .value v ∈ tokenize text → v ≠ "" ∧ ∀ c ∈ v.toList, isDelimiter c = false) ∧
    (∀ text, String.join ((tokenize text).map Token.text)
      = String.ofList (text.toList.filter fun c => !isBlank c)) ∧
    ∀ ts : List Token, (∀ v, .value v ∈ ts → v ≠ "" ∧ ∀ c ∈ v.toList, isDelimiter c = false) →
      tokenize (" ".intercalate (ts.map Token.text)) = ts := by
  refine ⟨⟨fun c => isDelimiter_iff, rfl, rfl, fun d => ofDelimiter?_of_isBlank⟩,
    ⟨munchesMaximally_tokenize, fun read h => h.eq_tokenize⟩,
    fun text v h => isClean_of_value_mem_tokenize h, join_text_tokenize, fun ts h => ?_⟩
  refine tokenize_spelling fun t ht v hv => h v ?_
  rwa [← hv]

/-- Letters and spaces outside ASCII belong to values, at cuts and in spellings alike. -/
theorem tokenize_munches_maximally_unicode :
    tokenize ("ä\u2028" ++ String.singleton '(' ++ " ß)\x0c")
        = tokenize "ä\u2028" ++ [.opening] ++ tokenize " ß)\x0c" ∧
      tokenize "a\u00a0b" = [.value "a\u00a0b"] ∧
      tokenize (" ".intercalate ([.closing, .value "ä\u2028", .opening, .value "-"].map Token.text))
        = [.closing, .value "ä\u2028", .opening, .value "-"] ∧
      .value "ß" ∈ tokenize "wurzel (ä ß)" ∧ "ß" ≠ "" ∧ ∀ c ∈ "ß".toList, isDelimiter c = false := by
  obtain ⟨-, ⟨hlaws, -⟩, hvalues, -, hspelling⟩ := tokenize_munches_maximally
  have hmem : .value "ß" ∈ tokenize "wurzel (ä ß)" := by decide
  have hclean : IsClean "a\u00a0b" := by decide
  refine ⟨hlaws.cut "ä\u2028" " ß)\x0c" '(' rfl, hlaws.value "a\u00a0b" hclean.1 hclean.2,
    hspelling _ fun v hv => ?_, hmem, hvalues "wurzel (ä ß)" "ß" hmem⟩
  have hcases : v = "ä\u2028" ∨ v = "-" := by simpa using hv
  show IsClean v
  rcases hcases with rfl | rfl <;> decide

end TreeText
