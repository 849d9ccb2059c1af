import TreeText.Proofs.Numeral
import TreeText.Token.Basic

/-!
# Token lists and their spellings

A value that comes out of a text is clean: it is not empty and holds no delimiter. The other way
round, every list of tokens whose values are clean is the token list of a text, for instance of its
spelling, which puts one space between the texts of two tokens.

Results:
* `isClean_of_value_mem_tokenize`: the values of a token list are clean.
* `tokenize_spelling`: a spelling has the tokens that it was made of.
* `exists_tokenize_eq_iff`: the lists of tokens that occur are those whose values are clean.
* `head?_tokenize`: a value in front reaches up to the first delimiter.
-/

namespace TreeText

/-- A text that is read as one value wherever blanks or parentheses surround it. -/
def IsClean (v : String) : Prop := v ≠ "" ∧ ∀ c ∈ v.toList, isDelimiter c = false

instance (v : String) : Decidable (IsClean v) :=
  decidable_of_iff ((v != "" && v.toList.all (!isDelimiter ·)) = true) (by simp [IsClean])

theorem isDelimiter_of_isDigit {c : Char} (h : c.isDigit = true) : isDelimiter c = false := by
  by_cases hc : isDelimiter c = true
  · simp only [isDelimiter, isBlank, Bool.or_eq_true, decide_eq_true_eq] at hc
    rcases hc with ((((((rfl | rfl) | rfl) | rfl) | rfl) | rfl) | rfl) <;> nomatch h
  · simpa using hc

theorem isClean_of_digits {v : String} (hne : v ≠ "") (h : ∀ c ∈ v.toList, c.isDigit = true) :
    IsClean v :=
  ⟨hne, fun c hc => isDelimiter_of_isDigit (h c hc)⟩

theorem isClean_repr (n : Nat) : IsClean n.repr := by
  refine isClean_of_digits Nat.repr_ne_empty fun c hc => ?_
  exact Numeral.isDigit_of_mem_repr hc

theorem isClean_int64 (n : Int64) : IsClean (toString n) := by
  have hint : ∀ i : Int, IsClean (toString i) := by
    intro i
    cases i with
    | ofNat m => exact isClean_repr m
    | negSucc m =>
      refine ⟨by simp [Int.repr_eq_if, ← String.toList_inj], fun c hc => ?_⟩
      have hmem : c = '-' ∨ c ∈ (m + 1).repr.toList := by
        simpa [Int.repr_eq_if] using hc
      rcases hmem with rfl | hc
      · rfl
      · exact (isClean_repr (m + 1)).2 c hc
  exact hint n.toInt

namespace Token

/-- A token that some text holds: a parenthesis or a clean value. -/
def Occurs (t : Token) : Prop := ∀ v, t = .value v → IsClean v

theorem occurs_value_iff {v : String} : (value v).Occurs ↔ IsClean v := by simp [Occurs]

theorem occurs_opening : opening.Occurs := fun _ h => nomatch h

theorem occurs_closing : closing.Occurs := fun _ h => nomatch h

theorem occurs_of_mem_ofDelimiter? {c : Char} {t : Token} (h : t ∈ ofDelimiter? c) : t.Occurs := by
  unfold ofDelimiter? at h
  split at h
  · cases h; exact occurs_opening
  · split at h
    · cases h; exact occurs_closing
    · nomatch h

end Token

/-! ## Values of a text -/

/-- The invariant of a scan: its tokens occur, and no delimiter is part of a value. -/
def Scan.Sound (s : Scan) : Prop :=
  (∀ t ∈ s.tokens, t.Occurs) ∧ ∀ c ∈ s.run, isDelimiter c = false

namespace Scan

theorem Sound.occurs_of_mem_finish {s : Scan} (hs : s.Sound) : ∀ t ∈ s.finish, t.Occurs := by
  obtain ⟨tokens, run⟩ := s
  obtain ⟨htokens, hrun⟩ := hs
  cases run with
  | nil => exact htokens
  | cons c run =>
    intro t ht
    rcases List.mem_cons.mp ht with rfl | ht
    · rw [Token.occurs_value_iff]
      refine ⟨by simp, fun d hd => hrun d ?_⟩
      simpa [or_comm] using hd
    · exact htokens t ht

theorem Sound.step {s : Scan} (hs : s.Sound) (c : Char) : (s.step c).Sound := by
  unfold Scan.step
  split
  · refine ⟨fun t ht => ?_, by simp⟩
    rcases List.mem_append.mp ht with ht | ht
    · exact Token.occurs_of_mem_ofDelimiter? (Option.mem_toList.mp ht)
    · exact hs.occurs_of_mem_finish t ht
  · rename_i hc
    refine ⟨hs.1, fun d hd => ?_⟩
    rcases List.mem_cons.mp hd with rfl | hd
    · simpa using hc
    · exact hs.2 d hd

theorem Sound.foldl_step {s : Scan} (hs : s.Sound) (cs : List Char) :
    (cs.foldl Scan.step s).Sound := by
  induction cs generalizing s with
  | nil => exact hs
  | cons c cs ih => exact ih (hs.step c)

end Scan

theorem occurs_of_mem_tokenize {text : String} {t : Token} (h : t ∈ tokenize text) : t.Occurs := by
  have hs : (text.toList.foldl Scan.step Scan.empty).Sound :=
    Scan.Sound.foldl_step (by simp [Scan.Sound, Scan.empty]) _
  exact hs.occurs_of_mem_finish t (by simpa [tokenize, scan] using h)

theorem isClean_of_value_mem_tokenize {text v : String} (h : .value v ∈ tokenize text) :
    IsClean v :=
  Token.occurs_value_iff.mp (occurs_of_mem_tokenize h)

/-! ## Texts with a separator -/

/-- The separator stands in front of every text but the first. -/
theorem toList_intercalate_cons (separator text : String) (texts : List String) :
    (separator.intercalate (text :: texts)).toList
      = text.toList ++ texts.flatMap fun u => separator.toList ++ u.toList := by
  induction texts generalizing text with
  | nil => simp
  | cons u texts ih =>
    rw [String.intercalate_cons_cons, String.toList_append, String.toList_append, ih,
      List.flatMap_cons]
    simp only [List.append_assoc]

/-! ## Tokens of a spelling -/

theorem tokenize_of_isClean {v : String} (h : IsClean v) : tokenize v = [.value v] :=
  tokenize_value h.1 h.2

theorem tokenize_append_space (a b : String) : tokenize (a ++ " " ++ b) = tokenize a ++ tokenize b := by
  have h := tokenize_append_delimiter a b (d := ' ') rfl
  simpa [Token.ofDelimiter?] using h

/-- Texts with a space between two of them are read one after the other, whatever they hold. -/
theorem tokenize_intercalate (texts : List String) :
    tokenize (" ".intercalate texts) = texts.flatMap tokenize := by
  induction texts with
  | nil => rfl
  | cons text texts ih =>
    cases texts with
    | nil => simp
    | cons next texts =>
      rw [String.intercalate_cons_cons, tokenize_append_space, ih]
      exact List.flatMap_cons.symm

theorem Token.Occurs.tokenize_text {t : Token} (h : t.Occurs) : tokenize t.text = [t] := by
  cases t with
  | opening => decide
  | closing => decide
  | value v => exact tokenize_of_isClean (occurs_value_iff.mp h)

/-- The texts of the tokens with a space between two of them. -/
def spelling (ts : List Token) : String := " ".intercalate (ts.map Token.text)

theorem tokenize_spelling {ts : List Token} (h : ∀ t ∈ ts, t.Occurs) : tokenize (spelling ts) = ts := by
  rw [spelling, tokenize_intercalate, List.flatMap_map]
  induction ts with
  | nil => rfl
  | cons t ts ih =>
    rw [List.flatMap_cons, (h t (List.mem_cons_self ..)).tokenize_text,
      ih fun u hu => h u (List.mem_cons_of_mem t hu)]
    rfl

theorem exists_tokenize_eq_iff {ts : List Token} :
    (∃ text, tokenize text = ts) ↔ ∀ t ∈ ts, t.Occurs := by
  constructor
  · rintro ⟨text, rfl⟩ t ht
    exact occurs_of_mem_tokenize ht
  · intro h
    exact ⟨spelling ts, tokenize_spelling h⟩

/-! ## The first token -/

/-- What stands in front of the first delimiter is the first token. -/
theorem head?_scan_append {v : String} (hv : IsClean v) {rest : List Char}
    (hrest : ∀ c ∈ rest.head?, isDelimiter c = true) :
    (scan (v.toList ++ rest)).head? = some (.value v) := by
  have hscan : scan v.toList = [.value v] := tokenize_of_isClean hv
  cases rest with
  | nil => rw [List.append_nil, hscan, List.head?_cons]
  | cons d rest =>
    rw [scan_append_delimiter _ _ (hrest d rfl), hscan]
    rfl

/-- A text that does not start with a delimiter starts with a value. -/
theorem head?_tokenize {text : String} {c : Char} {cs : List Char} (htext : text.toList = c :: cs)
    (hc : isDelimiter c = false) :
    (tokenize text).head?
      = some (.value (String.ofList (c :: cs.takeWhile (!isDelimiter ·)))) := by
  have hclean : IsClean (String.ofList (c :: cs.takeWhile (!isDelimiter ·))) := by
    refine ⟨by simp, fun d hd => ?_⟩
    rw [String.toList_ofList] at hd
    rcases List.mem_cons.mp hd with rfl | hd
    · exact hc
    · simpa using List.all_eq_true.mp List.all_takeWhile d hd
  have hrest : ∀ d ∈ (cs.dropWhile (!isDelimiter ·)).head?, isDelimiter d = true := by
    intro d hd
    have hnot := List.head?_dropWhile_not (!isDelimiter ·) cs
    rw [Option.mem_def.mp hd] at hnot
    simpa using hnot
  have h := head?_scan_append hclean hrest
  rwa [String.toList_ofList, List.cons_append, List.takeWhile_append_dropWhile, ← htext] at h

end TreeText
