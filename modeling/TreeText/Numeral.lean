/-!
# Numerals

A numeral is a text of one or more digits of a base, the most significant one first. Any number of
zeros may stand in front. Only the ASCII digits and letters count as digits.

Results:
* `Numeral.value_append`: the value of digits that follow others.
* `Numeral.natural?_eq_some_iff`: a text is read as a number exactly when it is a decimal numeral.
* `Numeral.fitsInt64_iff`, `toInt_ofNat_of_le`: the numbers that fit in 64 bits, and keep their value
  there.
-/

namespace TreeText

/-- The largest signed 64-bit integer, one less than the 63rd power of two. -/
def maxInt64 : Nat := 9223372036854775807

theorem toInt_ofNat_of_le {a : Nat} (h : a ≤ maxInt64) : (Int64.ofNat a).toInt = a :=
  Int64.toInt_ofNat_of_lt (Nat.lt_of_le_of_lt h (by decide))

namespace Numeral

/-- The number that an ASCII digit or letter stands for, letters of either case from ten on. -/
def digit (c : Char) : Nat :=
  if c.isDigit then c.toNat - '0'.toNat else (c.toLower.toNat - 'a'.toNat) + 10

/-- The digits of a base of up to sixteen. -/
def isDigitOf (base : Nat) (c : Char) : Bool :=
  (c.isDigit || ('a' ≤ c.toLower && c.toLower ≤ 'f')) && digit c < base

/-- The value of a list of digits. -/
def value (base : Nat) (ds : List Char) : Nat :=
  ds.foldl (fun n c => base * n + digit c) 0

/-- The number that decimal digits stand for. -/
def ofDigits? (ds : List Char) : Option Nat :=
  if ds ≠ [] ∧ ds.all Char.isDigit then some (value 10 ds) else none

/-- The number that a decimal numeral stands for. -/
def natural? (text : String) : Option Nat := ofDigits? text.toList

/-- Whether a number is in the range of signed 64-bit integers. -/
def fitsInt64 (n : Int) : Bool := Int64.minValue.toInt ≤ n && n ≤ Int64.maxValue.toInt

theorem value_snoc (base : Nat) (ds : List Char) (c : Char) :
    value base (ds ++ [c]) = base * value base ds + digit c := by
  simp [value]

/-- More digits go on from the value of those before them. -/
theorem value_append (base : Nat) (ds es : List Char) :
    value base (ds ++ es) = es.foldl (fun n c => base * n + digit c) (value base ds) := by
  simp [value]

theorem fitsInt64_iff {n : Nat} : fitsInt64 n = true ↔ n ≤ maxInt64 := by
  have hmin : Int64.minValue.toInt = -9223372036854775808 := rfl
  have hmax : Int64.maxValue.toInt = 9223372036854775807 := rfl
  simp only [fitsInt64, hmin, hmax, maxInt64, Bool.and_eq_true, decide_eq_true_eq]
  omega

theorem natural?_eq_some_iff {text : String} {n : Nat} :
    natural? text = some n
      ↔ text ≠ "" ∧ (∀ c ∈ text.toList, c.isDigit = true) ∧ value 10 text.toList = n := by
  simp [natural?, ofDigits?, and_assoc]

end Numeral

end TreeText
