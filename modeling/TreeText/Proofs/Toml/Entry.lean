import Mathlib
import TreeText.Proofs.Numeral
import TreeText.Proofs.Reader
import TreeText.Toml.Document

/-!
# Entries, one on a line

A settings file is often no more than lines of one entry each: a key without quotes, an equals sign and
a value, with a blank on both sides of the sign. Such a file holds these entries, in their order, if no
two keys are the same.

A value is known here by how its characters are read where a line ends behind them. Two kinds of values
are shown to be read as they are meant: the decimal text of a number, which is no date and no fraction,
and a text between quotes with nothing in it to escape.

Results:
* `spells_repr`, `spells_plain`: numbers in decimal digits and texts between quotes.
* `EntryLine.line_text`: a line is read as its entry.
* `document_flatMap_text`: a document of such lines holds their entries.
-/

namespace TreeText.Toml

variable {rest : List Char}

/-! ## Keys -/

/-- A key that is written without quotes. -/
def IsBareKey (key : String) : Prop := key ≠ "" ∧ ∀ c ∈ key.toList, isBare c = true

theorem ne_of_isBare {c d : Char} (hc : isBare c = true) (hd : isBare d = false) : c ≠ d := by
  rintro rfl
  exact absurd hc (by simp [hd])

theorem isSpace_of_isBare {c : Char} (h : isBare c = true) : isSpace c = false := by
  have hblank : c ≠ ' ' := ne_of_isBare h rfl
  have htab : c ≠ '\t' := ne_of_isBare h rfl
  simp [isSpace, hblank, htab]

theorem spaces_run {run : List Char} (hrun : ∀ c ∈ run, isSpace c = true)
    (hrest : ∀ c ∈ rest.head?, isSpace c = false) : spaces (run ++ rest) = some ((), rest) :=
  Reader.bind_of_some (Reader.takeWhile_run hrun hrest) _

theorem spaces_of_head? (h : ∀ c ∈ rest.head?, isSpace c = false) :
    spaces rest = some ((), rest) := by
  simpa using spaces_run (List.forall_mem_nil _) h

theorem spaces_cons (h : ∀ c ∈ rest.head?, isSpace c = false) :
    spaces (' ' :: rest) = some ((), rest) := by
  have hblank : ∀ c ∈ [' '], isSpace c = true := by simp [isSpace]
  exact spaces_run hblank h

theorem exists_toList_eq_cons {key : String} (h : IsBareKey key) :
    ∃ c cs, key.toList = c :: cs ∧ isBare c = true := by
  obtain ⟨hne, hbare⟩ := h
  cases hkey : key.toList with
  | nil => exact absurd (String.toList_eq_nil_iff.mp hkey) hne
  | cons c cs => exact ⟨c, cs, rfl, hbare c (by simp [hkey])⟩

theorem simpleKey_bare {key : String} (hkey : IsBareKey key)
    (hrest : ∀ c ∈ rest.head?, isSpace c = false) :
    simpleKey (key.toList ++ ' ' :: rest) = some (key, rest) := by
  obtain ⟨c, cs, htoList, hc⟩ := exists_toList_eq_cons hkey
  have hfront : spaces (key.toList ++ ' ' :: rest) = some ((), key.toList ++ ' ' :: rest) :=
    spaces_of_head? (by simp [htoList, isSpace_of_isBare hc])
  have hquoted : lineString (key.toList ++ ' ' :: rest) = none := by
    rw [htoList, List.cons_append, lineString]
    · rintro rest' ⟨⟩
      exact absurd hc (by decide)
    · rintro rest' ⟨⟩
      exact absurd hc (by decide)
  have hbare : Reader.takeWhile1 isBare (key.toList ++ ' ' :: rest)
      = some (key.toList, ' ' :: rest) :=
    Reader.takeWhile1_run (by simp [htoList]) hkey.2 (by simp [isBare])
  have hread : (lineString <|> (do pure (String.ofList (← Reader.takeWhile1 isBare))))
      (key.toList ++ ' ' :: rest) = some (key, ' ' :: rest) := by
    rw [Reader.orElse_of_none hquoted, Reader.bind_of_some hbare, String.ofList_toList]
    rfl
  rw [simpleKey, Reader.bind_of_some hfront, Reader.bind_of_some hread,
    Reader.bind_of_some (spaces_cons hrest)]
  rfl

theorem dottedKey_bare {key : String} (hkey : IsBareKey key)
    (hrest : ∀ c ∈ rest.head?, isSpace c = false ∧ c ≠ '.') :
    dottedKey (key.toList ++ ' ' :: rest) = some (([], key), rest) := by
  have hmore : (do Reader.char '.'; simpleKey) rest = none := by
    refine Reader.bind_of_none (Reader.char_of_head?_ne fun h => ?_) _
    exact (hrest '.' h).2 rfl
  have hkeys : Reader.separated simpleKey '.' (key.toList ++ ' ' :: rest) = some ([key], rest) := by
    rw [Reader.separated, simpleKey_bare hkey fun c hc => (hrest c hc).1]
    simp only [Reader.many_of_none hmore]
  rw [dottedKey, Reader.bind_of_some hkeys]
  rfl

/-! ## Integers -/

/-- What follows a digit of an integer that ends its line. -/
theorem head?_digits {ds : List Char} (hds : ∀ c ∈ ds, c.isDigit = true) :
    ∀ c ∈ (ds ++ '\n' :: rest).head?, c.isDigit = true ∨ c = '\n' := by
  intro c hc
  cases ds with
  | nil => exact .inr (Option.some.inj hc).symm
  | cons d ds =>
    obtain rfl := Option.some.inj hc
    exact .inl (hds d (List.mem_cons_self ..))

theorem fixedNumber_digits {ds : List Char} (hds : ∀ c ∈ ds, c.isDigit = true) {n limit m : Nat}
    {left : List Char} (h : fixedNumber n limit (ds ++ '\n' :: rest) = some (m, left)) :
    ∀ c ∈ left.head?, c.isDigit = true ∨ c = '\n' := by
  simp only [fixedNumber] at h
  split at h
  · rename_i hcond
    obtain ⟨-, hall, -⟩ := hcond
    obtain ⟨-, rfl⟩ := Prod.mk.inj (Option.some.inj h)
    have hle : n ≤ ds.length := by
      by_contra hlt
      have hmem : '\n' ∈ (ds ++ '\n' :: rest).take n := by
        rw [List.take_append, List.take_cons (by omega)]
        simp
      exact absurd (List.all_eq_true.mp hall _ hmem) (by decide)
    rw [List.drop_append_of_le_length hle]
    exact head?_digits fun c hc => hds c (List.mem_of_mem_drop hc)
  · nomatch h

/-- No date or time starts with digits up to the end of the line. -/
theorem dateTime_digits {ds : List Char} (hds : ∀ c ∈ ds, c.isDigit = true) :
    dateTime (ds ++ '\n' :: rest) = none := by
  have hdate : date (ds ++ '\n' :: rest) = none := by
    cases hyear : fixedNumber 4 9999 (ds ++ '\n' :: rest) with
    | none => exact Reader.bind_of_none hyear _
    | some p =>
      obtain ⟨year, left⟩ := p
      have hminus : Reader.char '-' left = none :=
        Reader.char_of_head?_ne fun h => absurd (fixedNumber_digits hds hyear '-' h) (by decide)
      rw [date, Reader.bind_of_some hyear, Reader.bind_of_none hminus]
  have htime : time (ds ++ '\n' :: rest) = none := by
    cases hhour : fixedNumber 2 23 (ds ++ '\n' :: rest) with
    | none => exact Reader.bind_of_none hhour _
    | some p =>
      obtain ⟨hour, left⟩ := p
      have hcolon : Reader.char ':' left = none :=
        Reader.char_of_head?_ne fun h => absurd (fixedNumber_digits hds hhour ':' h) (by decide)
      rw [time, Reader.bind_of_some hhour, Reader.bind_of_none hcolon]
  rw [dateTime, Reader.written, Reader.orElse_of_none (Reader.bind_of_none hdate _), htime]
  rfl

theorem sign_digits {s : List Char} (h : ∀ c ∈ s.head?, c.isDigit = true) :
    Decimal.sign s = some (false, s) := by
  unfold Decimal.sign
  split
  · exact absurd (h '-' rfl) (by decide)
  · exact absurd (h '+' rfl) (by decide)
  · rfl

theorem head?_toDigits {n : Nat} (hn : 0 < n) : (Nat.toDigits 10 n).head? ≠ some '0' := by
  induction n using Nat.strongRecOn with
  | ind n ih =>
    rw [Nat.toDigits_eq_if (by decide)]
    split
    · rename_i hlt
      interval_cases n <;> decide
    · rw [List.head?_append_of_ne_nil _ Nat.toDigits_ne_nil]
      exact ih (n / 10) (by omega) (by omega)

theorem digits_run {ds : List Char} (hne : ds ≠ []) (hds : ∀ c ∈ ds, c.isDigit = true) :
    digits Char.isDigit (ds ++ '\n' :: rest) = some (ds, '\n' :: rest) := by
  cases ds with
  | nil => exact absurd rfl hne
  | cons d ds =>
    rw [List.cons_append, digits, if_pos (hds d (List.mem_cons_self ..)),
      digitRun_of_digits (fun c hc => hds c (List.mem_cons_of_mem d hc)) (by decide) (by decide)]

/-- The decimal text of a number is the whole part of a number that ends its line. -/
theorem wholeDigits_repr (n : Nat) :
    wholeDigits (n.repr.toList ++ '\n' :: rest) = some (n.repr.toList, '\n' :: rest) := by
  rcases Nat.eq_zero_or_pos n with rfl | hn
  · rfl
  · have hne : n.repr.toList ≠ [] := by simp [Nat.toList_repr, Nat.toDigits_ne_nil]
    have hrun : digits Char.isDigit (n.repr.toList ++ '\n' :: rest) = _ :=
      digits_run hne fun c hc => Numeral.isDigit_of_mem_repr hc
    have hzero := head?_toDigits hn
    rw [← Nat.toList_repr] at hzero
    unfold wholeDigits
    split
    · rename_i left hs
      refine absurd ?_ hzero
      rw [← List.head?_append_of_ne_nil _ hne, hs]
      rfl
    · exact hrun

theorem isDigit_head?_repr (n : Nat) :
    ∀ c ∈ (n.repr.toList ++ '\n' :: rest).head?, c.isDigit = true := by
  intro c hc
  have hne : n.repr.toList ≠ [] := by simp [Nat.toList_repr, Nat.toDigits_ne_nil]
  rw [List.head?_append_of_ne_nil _ hne] at hc
  exact Numeral.isDigit_of_mem_repr (List.mem_of_mem_head? hc)

theorem sign_repr (n : Nat) :
    Decimal.sign (n.repr.toList ++ '\n' :: rest) = some (false, n.repr.toList ++ '\n' :: rest) :=
  sign_digits (isDigit_head?_repr n)

/-- Without a point or an exponent behind it, a whole number is no fraction. -/
theorem finiteFloat_repr (n : Nat) : finiteFloat (n.repr.toList ++ '\n' :: rest) = none := by
  have hexponent : Decimal.exponent (digits Char.isDigit) ('\n' :: rest) = none :=
    Reader.bind_of_none rfl _
  have hpoint : Reader.char '.' ('\n' :: rest) = none := rfl
  rw [finiteFloat, Reader.bind_of_some (sign_repr n), Reader.bind_of_some (wholeDigits_repr n)]
  refine Reader.bind_of_none ?_ _
  rw [Reader.orElse_of_none (Reader.bind_of_none hexponent _)]
  exact Reader.bind_of_none hpoint _

theorem specialFloat_repr (n : Nat) : specialFloat (n.repr.toList ++ '\n' :: rest) = none := by
  have hword {w : String} {c : Char} (hw : w.toList.head? = some c) (hc : c.isDigit = false) :
      Reader.word w (n.repr.toList ++ '\n' :: rest) = none :=
    Reader.word_of_head?_ne hw fun h => absurd (isDigit_head?_repr n c h) (by simp [hc])
  rw [specialFloat, Reader.bind_of_some (sign_repr n)]
  refine Reader.bind_of_none ?_ _
  rw [Reader.orElse_of_none (Reader.bind_of_none (hword rfl rfl) _)]
  exact Reader.bind_of_none (hword rfl rfl) _

theorem decimalInteger_repr {n : Nat} (hn : Numeral.fitsInt64 n = true) :
    decimalInteger (n.repr.toList ++ '\n' :: rest) = some ((n : Int), '\n' :: rest) := by
  have hvalue : Decimal.signed false n.repr.toList = n := by
    rw [Decimal.signed, if_neg (by decide), Numeral.value_repr]
  rw [decimalInteger, Reader.bind_of_some (sign_repr n), Reader.bind_of_some (wholeDigits_repr n),
    hvalue, inRange, if_pos hn]
  rfl

/-- A decimal text has no mark of another base. -/
theorem integer_repr {n : Nat} (hn : Numeral.fitsInt64 n = true) :
    integer (n.repr.toList ++ '\n' :: rest) = some ((n : Int), '\n' :: rest) := by
  have hmark {c : Char} {left : List Char} (h : n.repr.toList ++ '\n' :: rest = '0' :: c :: left) :
      c.isDigit = true ∨ c = '\n' := by
    cases hrepr : n.repr.toList with
    | nil =>
      rw [hrepr] at h
      exact absurd (List.cons.inj h).1 (by decide)
    | cons d ds =>
      rw [hrepr] at h
      have hds : ∀ e ∈ ds, e.isDigit = true :=
        fun e he => Numeral.isDigit_of_mem_repr (n := n) (by simp [hrepr, he])
      have htail : ds ++ '\n' :: rest = c :: left := (List.cons.inj h).2
      have hnext : c ∈ (ds ++ '\n' :: rest).head? := by rw [htail]; rfl
      exact head?_digits hds c hnext
  unfold integer
  split
  · rename_i h
    exact absurd (hmark h) (by decide)
  · rename_i h
    exact absurd (hmark h) (by decide)
  · rename_i h
    exact absurd (hmark h) (by decide)
  · exact decimalInteger_repr hn

theorem numberOrDate_repr {n : Nat} (hn : Numeral.fitsInt64 n = true) :
    numberOrDate (n.repr.toList ++ '\n' :: rest) = some (.value (.integer n), '\n' :: rest) := by
  have hdigits : ∀ c ∈ n.repr.toList, c.isDigit = true := fun c hc => Numeral.isDigit_of_mem_repr hc
  rw [numberOrDate, Reader.orElse_of_none (Reader.bind_of_none (dateTime_digits hdigits) _),
    Reader.orElse_of_none (Reader.bind_of_none (finiteFloat_repr n) _),
    Reader.orElse_of_none (Reader.bind_of_none (specialFloat_repr n) _),
    Reader.bind_of_some (integer_repr hn)]
  rfl

/-! ## Strings -/

/-- The texts that stand between double quotes as they are. -/
def IsPlainText (v : String) : Prop := ∀ c ∈ v.toList, isPrintable c = true ∧ c ≠ '"' ∧ c ≠ '\\'

theorem lineText_plain {cs : List Char}
    (h : ∀ c ∈ cs, isPrintable c = true ∧ c ≠ '"' ∧ c ≠ '\\') (acc : List Char) :
    lineText true '"' acc .outside (cs ++ '"' :: rest)
      = some (String.ofList (acc.reverse ++ cs), rest) := by
  induction cs generalizing acc with
  | nil => rw [List.nil_append, List.append_nil, lineText]; rfl
  | cons c cs ih =>
    obtain ⟨hprintable, hquote, hescape⟩ := h c (List.mem_cons_self ..)
    have hstep : textStep ⟨true, false⟩ acc .outside c = some (c :: acc, .outside) := by
      simp [textStep, Escape.isDropping, hescape, hprintable]
    rw [List.cons_append, lineText, if_neg (by simp [hquote]), hstep]
    simpa using ih (fun d hd => h d (List.mem_cons_of_mem c hd)) (c :: acc)

theorem text_plain {v : String} (hv : IsPlainText v) :
    text ('"' :: (v.toList ++ '"' :: '\n' :: rest)) = some (v, '\n' :: rest) := by
  have hquote : ∀ left, v.toList ++ '"' :: '\n' :: rest ≠ '"' :: '"' :: left := by
    intro left h
    cases hcs : v.toList with
    | nil =>
      rw [hcs] at h
      exact absurd (List.cons.inj (List.cons.inj h).2).1 (by decide)
    | cons c cs =>
      rw [hcs] at h
      exact (hv c (by simp [hcs])).2.1 (List.cons.inj h).1
  have hline : text ('"' :: (v.toList ++ '"' :: '\n' :: rest))
      = lineText true '"' [] .outside (v.toList ++ '"' :: '\n' :: rest) := by
    unfold text
    split
    · rename_i h
      exact absurd (List.cons.inj h).2 (hquote _)
    · rename_i h
      exact absurd (List.cons.inj h).2 (hquote _)
    · rename_i h
      exact absurd (List.cons.inj h).1 (by decide)
    · rename_i h
      exact absurd (List.cons.inj h).1 (by decide)
    · rfl
  rw [hline, lineText_plain hv, List.reverse_nil, List.nil_append, String.ofList_toList]

/-! ## Values -/

theorem value_eq_scalar {s : List Char} (h : ∀ c ∈ s.head?, c ≠ '[' ∧ c ≠ '\x7b') (depth : Nat) :
    value depth s = scalar s := by
  cases depth with
  | zero => rw [value]
  | succ depth =>
    rw [value, Reader.bind_peek]
    refine congrFun ?_ s
    split
    · rename_i hc
      exact absurd rfl (h _ hc).1
    · rename_i hc
      exact absurd rfl (h _ hc).2
    · rfl

theorem value_repr {n : Nat} (hn : Numeral.fitsInt64 n = true) (depth : Nat) :
    value depth (n.repr.toList ++ '\n' :: rest) = some (.value (.integer n), '\n' :: rest) := by
  have hfirst {c d : Char} (hd : d.isDigit = false)
      (hc : (n.repr.toList ++ '\n' :: rest).head? = some c) : c ≠ d := by
    rintro rfl
    exact absurd (isDigit_head?_repr n c hc) (by simp [hd])
  rw [value_eq_scalar fun c hc => ⟨hfirst rfl hc, hfirst rfl hc⟩, scalar, Reader.bind_peek]
  refine (congrFun ?_ _).trans (numberOrDate_repr hn)
  split
  · rename_i hc
    exact absurd rfl (hfirst rfl hc)
  · rename_i hc
    exact absurd rfl (hfirst rfl hc)
  · rename_i hc
    exact absurd rfl (hfirst rfl hc)
  · rename_i hc
    exact absurd rfl (hfirst rfl hc)
  · rfl

theorem value_plain {v : String} (hv : IsPlainText v) (depth : Nat) :
    value depth ('"' :: (v.toList ++ '"' :: '\n' :: rest))
      = some (.value (.text v), '\n' :: rest) := by
  rw [value_eq_scalar (by simp), scalar, Reader.bind_peek]
  exact Reader.bind_of_some (text_plain hv) _

/-! ## Lines -/

/-- Characters up to the end of a line are read as a value. -/
structure Spells (chars : List Char) (v : Value) : Prop where
  value : ∀ depth rest, Toml.value depth (chars ++ '\n' :: rest) = some (.value v, '\n' :: rest)
  not_space : ∀ c ∈ chars.head?, isSpace c = false
  no_return : '\r' ∉ chars

theorem spells_repr {n : Nat} (hn : Numeral.fitsInt64 n = true) :
    Spells n.repr.toList (.integer n) where
  value depth _ := value_repr hn depth
  not_space := by
    intro c hc
    have hdigit := Numeral.isDigit_of_mem_repr (List.mem_of_mem_head? hc)
    refine isSpace_of_isBare ?_
    simp [isBare, Char.isAlphanum, hdigit]
  no_return h := absurd (Numeral.isDigit_of_mem_repr h) (by decide)

theorem spells_plain {v : String} (hv : IsPlainText v) :
    Spells ('"' :: (v.toList ++ ['"'])) (.text v) where
  value depth rest := by
    rw [List.cons_append, List.append_assoc]
    exact value_plain hv depth
  not_space := by simp [isSpace]
  no_return h := by
    have hmem : '\r' ∈ v.toList := by simpa using h
    exact absurd (hv '\r' hmem).1 (by decide)

/-- An entry as it is written on a line: a key without quotes and the characters of its value. -/
structure EntryLine where
  key : String
  chars : List Char
  value : Value
  isBareKey : IsBareKey key
  spells : Spells chars value

namespace EntryLine

/-- The characters of the line. -/
def text (e : EntryLine) : List Char := e.key.toList ++ ' ' :: '=' :: ' ' :: (e.chars ++ ['\n'])

/-- What the line holds. -/
def line (e : EntryLine) : Line := .entry [] e.key (.value e.value)

theorem exists_text_eq_cons (e : EntryLine) : ∃ c cs, e.text = c :: cs ∧ isBare c = true := by
  obtain ⟨c, cs, hkey, hc⟩ := exists_toList_eq_cons e.isBareKey
  exact ⟨c, _, by rw [text, hkey]; rfl, hc⟩

theorem entry_text (e : EntryLine) (rest : List Char) :
    entry (e.text ++ rest) = some (e.line, rest) := by
  have htext : e.text ++ rest = e.key.toList ++ ' ' :: '=' :: ' ' :: (e.chars ++ '\n' :: rest) := by
    simp [text]
  have hkey : dottedKey (e.key.toList ++ ' ' :: '=' :: ' ' :: (e.chars ++ '\n' :: rest))
      = some (([], e.key), '=' :: ' ' :: (e.chars ++ '\n' :: rest)) :=
    dottedKey_bare e.isBareKey (by simp [isSpace])
  have hequals : Reader.char '=' ('=' :: ' ' :: (e.chars ++ '\n' :: rest))
      = some ((), ' ' :: (e.chars ++ '\n' :: rest)) := rfl
  have hblank : ∀ c ∈ (e.chars ++ '\n' :: rest).head?, isSpace c = false := by
    have hfirst := e.spells.not_space
    cases hchars : e.chars with
    | nil => simp [isSpace]
    | cons c cs => simpa [hchars] using hfirst
  have hend : trailing ('\n' :: rest) = some ((), rest) := rfl
  rw [htext, entry, Reader.bind_of_some hkey]
  dsimp only
  rw [Reader.bind_of_some hequals, Reader.bind_of_some (spaces_cons hblank),
    Reader.bind_of_some (e.spells.value _ rest), Reader.bind_of_some hend]
  rfl

theorem line_text (e : EntryLine) (rest : List Char) :
    Toml.line (e.text ++ rest) = some (e.line, rest) := by
  obtain ⟨c, cs, htext, hc⟩ := e.exists_text_eq_cons
  have hhead : (e.text ++ rest).head? = some c := by rw [htext]; rfl
  rw [Toml.line, Reader.bind_peek, hhead]
  refine (congrFun ?_ _).trans (e.entry_text rest)
  split
  · contradiction
  · rename_i heq
    exact absurd (Option.some.inj heq) (ne_of_isBare hc rfl)
  · rename_i heq
    exact absurd (Option.some.inj heq) (ne_of_isBare hc rfl)
  · rename_i heq
    exact absurd (Option.some.inj heq) (ne_of_isBare hc rfl)
  · rfl

end EntryLine

/-! ## Documents of entries -/

theorem isSpace_head?_flatMap (es : List EntryLine) :
    ∀ c ∈ (es.flatMap EntryLine.text).head?, isSpace c = false := by
  cases es with
  | nil => simp
  | cons e es =>
    obtain ⟨c, cs, htext, hc⟩ := e.exists_text_eq_cons
    simp [htext, isSpace_of_isBare hc]

theorem lines_flatMap_text (es : List EntryLine) :
    lines (es.flatMap EntryLine.text) = some (es.map EntryLine.line) := by
  have hmany : Reader.many (do let l ← line; spaces; pure l) (es.flatMap EntryLine.text)
      = (es.map EntryLine.line, []) := by
    induction es with
    | nil => exact Reader.many_of_none rfl
    | cons e es ih =>
      have hread : (do let l ← line; spaces; pure l) ((e :: es).flatMap EntryLine.text)
          = some (e.line, es.flatMap EntryLine.text) := by
        rw [List.flatMap_cons, Reader.bind_of_some (e.line_text _),
          Reader.bind_of_some (spaces_of_head? (isSpace_head?_flatMap es))]
        rfl
      have hlt : (es.flatMap EntryLine.text).length < ((e :: es).flatMap EntryLine.text).length := by
        obtain ⟨c, cs, htext, -⟩ := e.exists_text_eq_cons
        simp [htext]
      rw [Reader.many_of_some hread hlt, ih]
      rfl
  have hfront : (es.flatMap EntryLine.text).dropWhile isSpace = es.flatMap EntryLine.text :=
    (Reader.takeWhile_of_head? (isSpace_head?_flatMap es)).2
  rw [lines, hfront, hmany]
  rfl

/-- A key that is not there yet is added behind the others. -/
theorem add_line {entries : Entries} {e : EntryLine} (h : entries.lookup e.key = none) :
    Draft.add ⟨entries, []⟩ e.line = some ⟨entries ++ [(e.key, .value e.value)], []⟩ := by
  simp [EntryLine.line, Draft.add, Entries.addValueBelow, Entries.addValue, Entries.modifyAt, h]

theorem foldlM_add {es : List EntryLine} {entries : Entries}
    (hnodup : (es.map EntryLine.key).Nodup) (hnew : ∀ e ∈ es, entries.lookup e.key = none) :
    (es.map EntryLine.line).foldlM Draft.add ⟨entries, []⟩
      = some ⟨entries ++ es.map fun e => (e.key, .value e.value), []⟩ := by
  induction es generalizing entries with
  | nil => simp
  | cons e es ih =>
    obtain ⟨hne, hnodup⟩ := List.nodup_cons.mp hnodup
    have hnew' : ∀ d ∈ es, (entries ++ [(e.key, Item.value e.value)]).lookup d.key = none := by
      intro d hd
      have hkey : (d.key == e.key) = false :=
        beq_false_of_ne fun h => hne (h ▸ List.mem_map_of_mem hd)
      rw [List.lookup_append, hnew d (List.mem_cons_of_mem e hd), List.lookup_cons, hkey]
      rfl
    rw [List.map_cons, List.foldlM_cons, add_line (hnew e (List.mem_cons_self ..))]
    show List.foldlM Draft.add ⟨_, []⟩ _ = _
    rw [ih hnodup hnew', List.append_assoc]
    rfl

theorem entryValues?_map (es : List EntryLine) :
    entryValues? (es.map fun e => (e.key, .value e.value))
      = some (es.map fun e => (e.key, e.value)) := by
  induction es with
  | nil => rfl
  | cons e es ih =>
    rw [List.map_cons, entryValues?, ih]
    rfl

/-- The reserved key is not written without quotes. -/
theorem ne_dateKey {key : String} (h : IsBareKey key) : key ≠ dateKey := by
  rintro rfl
  exact absurd (h.2 '$' (List.mem_cons_self ..)) (by decide)

theorem tableValue?_map (es : List EntryLine) :
    tableValue? (es.map fun e => (e.key, .value e.value))
      = some (.table (es.map fun e => (e.key, e.value))) := by
  cases es with
  | nil => rfl
  | cons e es =>
    rw [List.map_cons, tableValue?, if_neg (ne_dateKey e.isBareKey), entryValues?_map]
    rfl

theorem unixLines_of_not_mem {s : List Char} (h : '\r' ∉ s) : unixLines s = s := by
  fun_induction unixLines s with
  | case1 rest ih => exact absurd (List.mem_cons_self ..) h
  | case2 c rest _ ih => rw [ih fun hmem => h (List.mem_cons_of_mem c hmem)]
  | case3 => rfl

theorem no_return_flatMap (es : List EntryLine) : '\r' ∉ es.flatMap EntryLine.text := by
  intro h
  obtain ⟨e, -, he⟩ := List.mem_flatMap.mp h
  have hcases : '\r' ∈ e.key.toList ∨ '\r' ∈ e.chars := by simpa [EntryLine.text] using he
  rcases hcases with hkey | hchars
  · exact absurd (e.isBareKey.2 '\r' hkey) (by decide)
  · exact e.spells.no_return hchars

theorem withoutMark_flatMap (es : List EntryLine) :
    withoutMark (es.flatMap EntryLine.text) = es.flatMap EntryLine.text := by
  cases es with
  | nil => rfl
  | cons e es =>
    obtain ⟨c, cs, htext, hc⟩ := e.exists_text_eq_cons
    unfold withoutMark
    split
    · rename_i heq
      rw [List.flatMap_cons, htext] at heq
      exact absurd (List.cons.inj heq).1 (ne_of_isBare hc rfl)
    · rfl

/-- A document of entries under different keys without quotes holds these entries. -/
theorem document_flatMap_text {es : List EntryLine} (hnodup : (es.map EntryLine.key).Nodup) :
    document (String.ofList (es.flatMap EntryLine.text))
      = some (es.map fun e => (e.key, e.value)) := by
  have hdraft : (es.map EntryLine.line).foldlM Draft.add ⟨[], []⟩
      = some ⟨es.map fun e => (e.key, .value e.value), []⟩ :=
    foldlM_add hnodup fun _ _ => rfl
  rw [document, String.toList_ofList, withoutMark_flatMap,
    unixLines_of_not_mem (no_return_flatMap es), lines_flatMap_text]
  simp only [Option.bind_eq_bind, Option.bind_some, hdraft, tableValue?_map]

end TreeText.Toml
