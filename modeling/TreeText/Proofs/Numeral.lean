import TreeText.Numeral

/-!
# Decimal texts

The decimal text of a number is a numeral that is read as this number, so different numbers have
different decimal texts. With a minus in front of the negative ones this holds of integers.

Results:
* `Numeral.natural?_repr`: the decimal text of a number is read as the number.
* `Numeral.int_repr_inj`, `Numeral.int64_toString_inj`: integers are equal if their texts are.
-/

namespace TreeText

namespace Numeral

theorem digit_of_isDigit {c : Char} (h : c.isDigit = true) : digit c = c.toNat - '0'.toNat :=
  if_pos h

/-- On decimal digits the value is the one that the library gives them. -/
theorem value_eq_ofDigitChars {ds : List Char} (h : ∀ c ∈ ds, c.isDigit = true) :
    value 10 ds = Nat.ofDigitChars 10 ds 0 := by
  have hfold (n : Nat) : ds.foldl (fun n c => 10 * n + digit c) n = Nat.ofDigitChars 10 ds n := by
    induction ds generalizing n with
    | nil => rfl
    | cons c ds ih =>
      rw [List.foldl_cons, Nat.ofDigitChars_cons, digit_of_isDigit (h c (List.mem_cons_self ..))]
      exact ih (fun d hd => h d (List.mem_cons_of_mem c hd)) _
  exact hfold 0

theorem isDigit_of_mem_repr {n : Nat} {c : Char} (h : c ∈ n.repr.toList) : c.isDigit = true := by
  rw [Nat.toList_repr] at h
  exact Nat.isDigit_of_mem_toDigits (by decide) (by decide) h

theorem value_repr (n : Nat) : value 10 n.repr.toList = n := by
  rw [value_eq_ofDigitChars fun c hc => isDigit_of_mem_repr hc, Nat.toList_repr]
  exact Nat.ofDigitChars_ten_toDigits

/-- The decimal text of a number is read as the number. -/
theorem natural?_repr (n : Nat) : natural? n.repr = some n :=
  natural?_eq_some_iff.mpr ⟨Nat.repr_ne_empty, fun _ hc => isDigit_of_mem_repr hc, value_repr n⟩

theorem nat_repr_inj {m n : Nat} (h : m.repr = n.repr) : m = n := by
  have hread := congrArg natural? h
  rw [natural?_repr, natural?_repr] at hread
  exact Option.some.inj hread

/-- A decimal text does not start with a minus. -/
theorem minus_append_ne_repr (text : String) (n : Nat) : "-" ++ text ≠ n.repr := by
  intro h
  have hminus : '-' ∈ n.repr.toList := by
    rw [← h, String.toList_append]
    exact List.mem_cons_self ..
  exact absurd (isDigit_of_mem_repr hminus) (by decide)

theorem int_repr_inj {i j : Int} (h : i.repr = j.repr) : i = j := by
  rw [Int.repr_eq_if, Int.repr_eq_if] at h
  split at h <;> split at h
  · have := nat_repr_inj h
    omega
  · exact absurd h.symm (minus_append_ne_repr _ _)
  · exact absurd h (minus_append_ne_repr _ _)
  · have := nat_repr_inj (String.append_right_inj "-" |>.mp h)
    omega

theorem int64_toString_inj {a b : Int64} (h : toString a = toString b) : a = b :=
  Int64.toInt_inj.mp (int_repr_inj h)

end Numeral

end TreeText
