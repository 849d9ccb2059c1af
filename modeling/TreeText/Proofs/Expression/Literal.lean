import Mathlib.Data.Nat.Digits.Defs
import TreeText.Proofs.Expression.Checked
import TreeText.Proofs.Expression.Validity

/-!
# Literals

The literals are the ASCII decimal numerals up to the largest 64-bit integer. Zeros in front do not
count, however many there are, so a literal can be longer than any bound.

A machine takes the digits one by one, times ten and plus the digit, and stops when a step leaves the
range of 64 bits. The numbers on the way never go down, so a step leaves the range exactly if the
whole numeral is too large.

Results:
* `Numeral.value_eq_positional`: digits read one by one have the value of their places.
* `Numeral.accumulate_eq`: the digits are taken into 64 bits unless the numeral is too large.
* `literal?_replicate_zero_append`: zeros in front change nothing.
* `literal?_iff_numeral`: which texts are literals, and for which numbers.
-/

namespace TreeText

namespace Numeral

/-! ## Places -/

/-- The number that digits stand for by their places: the last one counts ones, the one in front of
it tens, and so on. -/
def positional (text : String) : Nat :=
  Nat.ofDigits 10 (text.toList.reverse.map fun c => c.toNat - '0'.toNat)

theorem isDigit_iff {c : Char} : c.isDigit = true ↔ '0' ≤ c ∧ c ≤ '9' := by
  simp [Char.isDigit, Char.le_def]

/-- The last digit of a list is read last, and counts ones. -/
theorem value_reverse {ds : List Char} (h : ∀ c ∈ ds, c.isDigit = true) :
    value 10 ds.reverse = Nat.ofDigits 10 (ds.map fun c => c.toNat - '0'.toNat) := by
  induction ds with
  | nil => rfl
  | cons c ds ih =>
    obtain ⟨hc, hds⟩ := List.forall_mem_cons.mp h
    rw [List.reverse_cons, value_snoc, ih hds, List.map_cons, Nat.ofDigits_cons,
      digit_of_isDigit hc, Nat.add_comm]

theorem value_eq_positional {text : String} (h : ∀ c ∈ text.toList, c.isDigit = true) :
    value 10 text.toList = positional text := by
  rw [positional, ← value_reverse fun c hc => h c (List.mem_reverse.mp hc), List.reverse_reverse]

/-! ## Zeros in front -/

theorem value_replicate_zero (k : Nat) : value 10 (List.replicate k '0') = 0 := by
  induction k with
  | zero => rfl
  | succ k ih =>
    rw [List.replicate_succ', value_snoc, ih]
    rfl

theorem value_replicate_zero_append (k : Nat) (ds : List Char) :
    value 10 (List.replicate k '0' ++ ds) = value 10 ds := by
  rw [value_append, value_replicate_zero]
  rfl

theorem natural?_replicate_zero_append (k : Nat) {text : String} (h : text ≠ "") :
    natural? (String.ofList (List.replicate k '0') ++ text) = natural? text := by
  have hne : text.toList ≠ [] := by simpa using h
  have hdigits : (List.replicate k '0' ++ text.toList).all Char.isDigit
      = text.toList.all Char.isDigit := by
    have hzeros : (List.replicate k '0').all Char.isDigit = true :=
      List.all_eq_true.mpr fun c hc => by rw [List.eq_of_mem_replicate hc]; rfl
    rw [List.all_append, hzeros, Bool.true_and]
  simp only [natural?, ofDigits?, String.toList_append, String.toList_ofList, hdigits,
    value_replicate_zero_append, ne_eq, List.append_eq_nil_iff, hne, and_false, not_false_eq_true]

/-! ## Digit by digit in 64 bits -/

/-- An operation on numbers that are not negative, and whose result is not, overflows upwards only. -/
theorem apply_ofNat {op : Operator} (hop : op ≠ .divide) {a b c : Nat} (ha : a ≤ maxInt64)
    (hb : b ≤ maxInt64) (hc : op.exact a b = c) :
    op.apply (Int64.ofNat a) (Int64.ofNat b) =
      if c ≤ maxInt64 then .ok (Int64.ofNat c) else .error .overflow := by
  have hexact : op.exact (Int64.ofNat a).toInt (Int64.ofNat b).toInt = c := by
    rw [toInt_ofNat_of_le ha, toInt_ofNat_of_le hb, hc]
  by_cases hle : c ≤ maxInt64
  · rw [if_pos hle]
    exact Operator.apply_eq_ok hop (hexact.trans (toInt_ofNat_of_le hle).symm)
  · rw [if_neg hle]
    refine Operator.apply_eq_overflow hop ?_
    rw [hexact, InRange]
    unfold maxInt64 at hle
    omega

/-- Takes one more digit into a number: times ten and plus the digit, both checked. -/
def takeDigit (n : Int64) (c : Char) : Except Error Int64 := do
  Operator.add.apply (← Operator.multiply.apply n 10) (Int64.ofNat (digit c))

/-- The number that digits make, taken in one by one, unless a step leaves the range of 64 bits. -/
def accumulate (ds : List Char) : Except Error Int64 := ds.foldlM takeDigit 0

theorem digit_le_nine {c : Char} (h : c.isDigit = true) : digit c ≤ 9 := by
  have hle : c.toNat ≤ '9'.toNat := (isDigit_iff.mp h).2
  rw [digit_of_isDigit h]
  exact Nat.sub_le_sub_right hle _

/-- One step is exact unless its result does not fit. -/
theorem takeDigit_eq {a : Nat} (ha : a ≤ maxInt64) {c : Char} (hc : c.isDigit = true) :
    takeDigit (Int64.ofNat a) c =
      if 10 * a + digit c ≤ maxInt64 then .ok (Int64.ofNat (10 * a + digit c))
      else .error .overflow := by
  have hdigit : digit c ≤ maxInt64 := Nat.le_trans (digit_le_nine hc) (by decide)
  have hproduct : Operator.multiply.apply (Int64.ofNat a) 10 =
      if 10 * a ≤ maxInt64 then .ok (Int64.ofNat (10 * a)) else .error .overflow :=
    apply_ofNat (by decide) ha (by decide) (Int.mul_comm a 10)
  rw [takeDigit, hproduct]
  by_cases hmul : 10 * a ≤ maxInt64
  · rw [if_pos hmul]
    show Operator.add.apply (Int64.ofNat (10 * a)) (Int64.ofNat (digit c)) = _
    exact apply_ofNat (by decide) hmul hdigit rfl
  · rw [if_neg hmul, if_neg (by omega)]
    rfl

/-- No step goes down. -/
theorem le_foldl (ds : List Char) (a : Nat) : a ≤ ds.foldl (fun n c => 10 * n + digit c) a := by
  induction ds generalizing a with
  | nil => exact Nat.le_refl a
  | cons c ds ih => exact Nat.le_trans (by omega) (ih (10 * a + digit c))

theorem foldlM_takeDigit {ds : List Char} (hds : ∀ c ∈ ds, c.isDigit = true) {a : Nat}
    (ha : a ≤ maxInt64) :
    ds.foldlM takeDigit (Int64.ofNat a) =
      if ds.foldl (fun n c => 10 * n + digit c) a ≤ maxInt64 then
        .ok (Int64.ofNat (ds.foldl (fun n c => 10 * n + digit c) a))
      else .error .overflow := by
  induction ds generalizing a with
  | nil => exact (if_pos ha).symm
  | cons c ds ih =>
    obtain ⟨hc, hds⟩ := List.forall_mem_cons.mp hds
    rw [List.foldlM_cons, takeDigit_eq ha hc, List.foldl_cons]
    by_cases hstep : 10 * a + digit c ≤ maxInt64
    · rw [if_pos hstep]
      exact ih hds hstep
    · -- what has left the range does not come back
      have hle := le_foldl ds (10 * a + digit c)
      rw [if_neg hstep, if_neg (by omega)]
      rfl

theorem accumulate_eq {ds : List Char} (hds : ∀ c ∈ ds, c.isDigit = true) :
    accumulate ds =
      if value 10 ds ≤ maxInt64 then .ok (Int64.ofNat (value 10 ds)) else .error .overflow :=
  foldlM_takeDigit hds (Nat.zero_le maxInt64)

end Numeral

/-! ## Literals -/

/-- Zeros in front of a text count as nothing, unless there is nothing else. -/
theorem literal?_replicate_zero_append (k : Nat) {text : String} (h : text ≠ "") :
    literal? (String.ofList (List.replicate k '0') ++ text) = literal? text := by
  rw [literal?, literal?, Numeral.natural?_replicate_zero_append k h]

/-- A numeral is a literal if its digits can be taken into 64 bits one by one. -/
theorem literal?_eq_accumulate {text : String} (hne : text ≠ "")
    (hdigits : ∀ c ∈ text.toList, c.isDigit = true) :
    literal? text = (Numeral.accumulate text.toList).toOption := by
  have hread : Numeral.natural? text = some (Numeral.value 10 text.toList) :=
    Numeral.natural?_eq_some_iff.mpr ⟨hne, hdigits, rfl⟩
  rw [literal?, hread, Numeral.accumulate_eq hdigits]
  dsimp only
  split <;> rfl

theorem literal?_eq_some_iff_positional {text : String} {n : Int64} :
    literal? text = some n ↔
      text ≠ "" ∧ (∀ c ∈ text.toList, '0' ≤ c ∧ c ≤ '9') ∧
        Numeral.positional text ≤ 2 ^ 63 - 1 ∧ n.toInt = Numeral.positional text := by
  simp only [literal?_eq_some_iff, ← Numeral.isDigit_iff]
  refine and_congr_right fun _ => and_congr_right fun hdigits => ?_
  rw [Numeral.value_eq_positional hdigits]
  refine and_congr_right fun hle => ?_
  rw [← Int64.toInt_inj, toInt_ofNat_of_le hle]

theorem literal?_eq_none_iff {text : String} :
    literal? text = none ↔
      text = "" ∨ (∃ c ∈ text.toList, ¬ ('0' ≤ c ∧ c ≤ '9')) ∨
        2 ^ 63 - 1 < Numeral.positional text := by
  rw [← Option.not_isSome_iff_eq_none, isSome_literal?_iff]
  constructor
  · intro h
    refine or_iff_not_imp_left.mpr fun hne => or_iff_not_imp_left.mpr fun hall => ?_
    have hdigits : ∀ c ∈ text.toList, c.isDigit = true := by
      intro c hc
      exact Numeral.isDigit_iff.mpr (Classical.byContradiction fun hnot => hall ⟨c, hc, hnot⟩)
    rw [← Numeral.value_eq_positional hdigits]
    exact Nat.lt_of_not_le fun hle => h ⟨hne, hdigits, hle⟩
  · rintro (hempty | ⟨c, hc, hnot⟩ | hlt) ⟨hne, hdigits, hle⟩
    · exact hne hempty
    · exact hnot (Numeral.isDigit_iff.mp (hdigits c hc))
    · rw [Numeral.value_eq_positional hdigits] at hle
      exact Nat.not_le_of_lt hlt hle

/-- **Literals are the decimal numerals in range.** A text is a literal for `n` if and only if it is
not empty, all its characters are the ASCII digits, and `n` is the number that they stand for by their
places, which is at most the largest 64-bit integer; every other text is none. Taking the digits into
64 bits one by one, every step checked, comes to the same. Zeros in front, any number of them, change
nothing, and the decimal text of a number is a literal for it, unless it is negative. -/
theorem literal?_iff_numeral :
    (∀ (text : String) (n : Int64),
      literal? text = some n ↔
        text ≠ "" ∧ (∀ c ∈ text.toList, '0' ≤ c ∧ c ≤ '9') ∧
          Numeral.positional text ≤ 2 ^ 63 - 1 ∧ n.toInt = Numeral.positional text) ∧
    (∀ text : String,
      literal? text = none ↔
        text = "" ∨ (∃ c ∈ text.toList, ¬ ('0' ≤ c ∧ c ≤ '9')) ∨
          2 ^ 63 - 1 < Numeral.positional text) ∧
    (∀ text : String, text ≠ "" → (∀ c ∈ text.toList, '0' ≤ c ∧ c ≤ '9') →
      literal? text = (Numeral.accumulate text.toList).toOption) ∧
    (∀ (k : Nat) (text : String), text ≠ "" →
      literal? (String.ofList (List.replicate k '0') ++ text) = literal? text) ∧
    ∀ n : Int64, 0 ≤ n → literal? (toString n) = some n := by
  refine ⟨fun _ _ => literal?_eq_some_iff_positional, fun _ => literal?_eq_none_iff,
    fun text hne hdigits => ?_, fun k _ hne => literal?_replicate_zero_append k hne,
    fun _ hn => literal?_toString hn⟩
  exact literal?_eq_accumulate hne fun c hc => Numeral.isDigit_iff.mpr (hdigits c hc)

/-- The largest literal, behind a thousand zeros; one more than it; and a digit that is not ASCII. -/
theorem literal?_iff_numeral_boundary :
    literal? (toString Int64.maxValue) = some Int64.maxValue ∧
      literal? (String.ofList (List.replicate 1000 '0') ++ "9223372036854775807")
        = some Int64.maxValue ∧
      literal? "9223372036854775808" = none ∧
      (Numeral.accumulate "9223372036854775808".toList).toOption = none ∧
      literal? "\u0663" = none := by
  obtain ⟨-, hnone, haccumulate, hzeros, hdecimal⟩ := literal?_iff_numeral
  have hlargest : literal? (toString Int64.maxValue) = some Int64.maxValue :=
    hdecimal Int64.maxValue (by decide)
  have hover : literal? "9223372036854775808" = none := (hnone _).mpr (.inr (.inr (by decide)))
  have hdigits : ∀ c ∈ "9223372036854775808".toList, c.isDigit = true :=
    List.all_eq_true.mp (by decide)
  have hforeign : ¬ '\u0663'.isDigit = true := by decide
  refine ⟨hlargest, ?_, hover, ?_, (hnone _).mpr (.inr (.inl ⟨'\u0663', by simp, ?_⟩))⟩
  · rw [hzeros 1000 "9223372036854775807" (by decide)]
    exact hlargest
  · rw [← haccumulate "9223372036854775808" (by decide)
      fun c hc => Numeral.isDigit_iff.mp (hdigits c hc)]
    exact hover
  · rwa [← Numeral.isDigit_iff]

end TreeText
