import TreeText.Reader

/-!
# What readers do

A reader on a text whose front is known: in sequence the second reader goes on where the first one
stopped, a choice takes the second reader where the first one fails, and a run of characters is read up
to what cannot belong to it.

Results:
* `Reader.bind_of_some`, `Reader.bind_of_none`: readers in sequence.
* `Reader.orElse_of_none`: readers by choice.
* `Reader.takeWhile_run`, `Reader.takeWhile1_run`: a run and what ends it.
* `Reader.many_of_none`, `Reader.many_of_some`: repetition, one reading at a time.
-/

namespace TreeText.Reader

variable {α β : Type} {s rest : List Char}

/-! ## Sequence and choice -/

theorem bind_of_some {r : Reader α} {a : α} (h : r s = some (a, rest)) (f : α → Reader β) :
    (r >>= f) s = f a rest := by
  show (r s).bind _ = _
  rw [h]
  rfl

theorem bind_of_none {r : Reader α} (h : r s = none) (f : α → Reader β) : (r >>= f) s = none := by
  show (r s).bind _ = _
  rw [h]
  rfl

theorem orElse_of_none {r : Reader α} (h : r s = none) (q : Reader α) : (r <|> q) s = q s := by
  show (r s <|> q s) = _
  rw [h]
  rfl

/-! ## Characters and runs -/

theorem bind_peek (f : Option Char → Reader β) : (peek >>= f) s = f s.head? s :=
  bind_of_some rfl f

theorem char_of_head?_ne {c : Char} (h : s.head? ≠ some c) : char c s = none := by
  cases s with
  | nil => rfl
  | cons d rest => exact if_neg fun hd => h (congrArg some hd)

theorem word_of_head?_ne {w : String} {c : Char} (hw : w.toList.head? = some c)
    (h : s.head? ≠ some c) : word w s = none := by
  rw [word, if_neg]
  rw [List.isPrefixOf_iff_prefix]
  rintro ⟨left, rfl⟩
  exact h (by rw [List.head?_append, hw]; rfl)

theorem takeWhile_of_head? {p : Char → Bool} (h : ∀ c ∈ s.head?, p c = false) :
    s.takeWhile p = [] ∧ s.dropWhile p = s := by
  cases s with
  | nil => exact ⟨rfl, rfl⟩
  | cons c s => simp [h c rfl]

/-- A run is read up to the first character that cannot belong to it. -/
theorem takeWhile_run {p : Char → Bool} {run : List Char} (hrun : ∀ c ∈ run, p c = true)
    (hrest : ∀ c ∈ rest.head?, p c = false) : takeWhile p (run ++ rest) = some (run, rest) := by
  obtain ⟨htaken, hleft⟩ := takeWhile_of_head? hrest
  rw [takeWhile, List.takeWhile_append_of_pos hrun, List.dropWhile_append_of_pos hrun, htaken, hleft,
    List.append_nil]

theorem takeWhile1_run {p : Char → Bool} {run : List Char} (hne : run ≠ [])
    (hrun : ∀ c ∈ run, p c = true) (hrest : ∀ c ∈ rest.head?, p c = false) :
    takeWhile1 p (run ++ rest) = some (run, rest) := by
  obtain ⟨htaken, hleft⟩ := Prod.mk.inj (Option.some.inj (takeWhile_run hrun hrest))
  rw [takeWhile1, htaken, hleft, if_neg (by simpa using hne)]

/-! ## Repetition -/

theorem many_of_none {r : Reader α} (h : r s = none) : many r s = ([], s) := by
  rw [many_eq, h]

theorem many_of_some {r : Reader α} {a : α} (h : r s = some (a, rest))
    (hlt : rest.length < s.length) : many r s = (a :: (many r rest).1, (many r rest).2) := by
  rw [many_eq, h]
  exact if_pos hlt

/-- A repetition that reads nothing leaves the text as it was. -/
theorem many_eq_nil {r : Reader α} (h : (many r s).1 = []) : (many r s).2 = s := by
  rw [many_eq] at h ⊢
  split
  · rfl
  · rename_i a rest hr
    rw [hr] at h
    split
    · rename_i hlt
      simp [hlt] at h
    · rfl

end TreeText.Reader
