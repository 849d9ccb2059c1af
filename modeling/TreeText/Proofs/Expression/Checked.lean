import Mathlib.Algebra.Group.Int.Defs
import Mathlib.Algebra.Group.Nat.Defs
import TreeText.Expression.Operator

/-!
# Checked operations

An operation on 64-bit integers gives the exact result or tells a fault: a division by zero, or a
result that 64 bits cannot hold. Only one quotient is of the second kind, that of the smallest
integer by minus one.

Results:
* `Operator.map_apply`: an operation on 64-bit integers is the one on integers of any size, with its
  faults.
-/

namespace TreeText

/-- The integers that 64 bits can hold. -/
def InRange (n : Int) : Prop := -2 ^ 63 ≤ n ∧ n ≤ 2 ^ 63 - 1

instance (n : Int) : Decidable (InRange n) := inferInstanceAs (Decidable (_ ∧ _))

theorem inRange_toInt (a : Int64) : InRange a.toInt := by
  have hlt := a.toInt_lt
  have hle := a.le_toInt
  exact ⟨hle, by omega⟩

theorem bmod_of_inRange {n : Int} (h : InRange n) : n.bmod (2 ^ 64) = n := by
  obtain ⟨hle, hlt⟩ := h
  rw [Int.bmod_eq_of_le] <;> omega

namespace Operator

/-! ## Operations on integers of any size -/

/-- What an operator makes of two integers; a quotient drops its fraction. -/
def exact : Operator → Int → Int → Int
  | add, a, b => a + b
  | subtract, a, b => a - b
  | multiply, a, b => a * b
  | divide, a, b => a.tdiv b

/-- What is wrong with an operation, if anything: the divisor is zero, or 64 bits cannot hold the
result. -/
def fault? (op : Operator) (a b : Int) : Option Error :=
  if op = divide ∧ b = 0 then some .divisionByZero
  else if InRange (op.exact a b) then none
  else some .overflow

/-- The exact result of an operation, or its fault. -/
def checked (op : Operator) (a b : Int) : Except Error Int :=
  match op.fault? a b with
  | some e => .error e
  | none => .ok (op.exact a b)

theorem checked_of_inRange {op : Operator} {a b : Int} (hop : op ≠ divide)
    (h : InRange (op.exact a b)) : op.checked a b = .ok (op.exact a b) := by
  rw [checked, fault?, if_neg fun hzero => hop hzero.1, if_pos h]

/-- What follows a checked operation goes on with the exact result. -/
theorem checked_bind (op : Operator) (a b : Int) (f : Int → Except Error Int) :
    op.checked a b >>= f = op.checked a b >>= fun _ => f (op.exact a b) := by
  unfold checked
  cases op.fault? a b <;> rfl

theorem eq_or_eq_of_fault? {op : Operator} {a b : Int} {e : Error}
    (h : op.fault? a b = some e) : e = .divisionByZero ∨ e = .overflow := by
  unfold fault? at h
  split at h
  · exact .inl (Option.some.inj h).symm
  · split at h
    · nomatch h
    · exact .inr (Option.some.inj h).symm

/-! ## Operations on 64-bit integers -/

/-- The flags of sums, differences and products compare the exact result with the range. -/
theorem flag_eq_false_iff {n : Int} :
    (decide (n ≥ 2 ^ (64 - 1)) || decide (n < -2 ^ (64 - 1))) = false ↔ InRange n := by
  simp only [Bool.or_eq_false_iff, decide_eq_false_iff_not, InRange]
  omega

theorem toInt_div_of_not {a b : Int64} (h : ¬ (a = Int64.minValue ∧ b = -1)) :
    (a / b).toInt = a.toInt.tdiv b.toInt := by
  by_cases ha : a = Int64.minValue
  · exact Int64.toInt_div_of_ne_right a b fun hb => h ⟨ha, hb⟩
  · exact Int64.toInt_div_of_ne_left a b ha

theorem sdivOverflow_eq_false_iff (a b : Int64) :
    a.toBitVec.sdivOverflow b.toBitVec = false ↔ InRange (a.toInt.tdiv b.toInt) := by
  by_cases h : a = Int64.minValue ∧ b = -1
  · obtain ⟨rfl, rfl⟩ := h
    decide
  · have hflag : a.toBitVec.sdivOverflow b.toBitVec = false := by
      rw [BitVec.sdivOverflow_eq, Bool.eq_false_iff]
      intro htrue
      simp only [Bool.and_eq_true, decide_eq_true_eq] at htrue
      exact h ⟨Int64.toBitVec_inj.mp htrue.1.2, Int64.toBitVec_inj.mp htrue.2⟩
    rw [← toInt_div_of_not h]
    exact iff_of_true hflag (inRange_toInt _)

/-- Apart from divisions by zero, the result is the exact one modulo the 64th power of two, and the
flag tells whether the exact one is out of range. -/
theorem exists_apply_eq {op : Operator} {a b : Int64} (h : ¬ (op = divide ∧ b = 0)) :
    ∃ overflows result, op.apply a b = unlessOverflow overflows result ∧
      (overflows = false ↔ InRange (op.exact a.toInt b.toInt)) ∧
      result.toInt = (op.exact a.toInt b.toInt).bmod (2 ^ 64) := by
  cases op with
  | add => exact ⟨_, _, rfl, flag_eq_false_iff, Int64.toInt_add a b⟩
  | subtract => exact ⟨_, _, rfl, flag_eq_false_iff, Int64.toInt_sub a b⟩
  | multiply => exact ⟨_, _, rfl, flag_eq_false_iff, Int64.toInt_mul a b⟩
  | divide =>
    have hb : b ≠ 0 := fun hb => h ⟨rfl, hb⟩
    exact ⟨_, _, if_neg hb, sdivOverflow_eq_false_iff a b, Int64.toInt_div a b⟩

/-- An operation on 64-bit integers is the exact one, with its faults. -/
theorem map_apply (op : Operator) (a b : Int64) :
    (op.apply a b).map Int64.toInt = op.checked a.toInt b.toInt := by
  by_cases h : op = divide ∧ b = 0
  · obtain ⟨rfl, rfl⟩ := h
    rfl
  · obtain ⟨overflows, result, happly, hflag, hresult⟩ := exists_apply_eq h
    have hzero : ¬ (op = divide ∧ b.toInt = 0) := fun hz =>
      h ⟨hz.1, Int64.toInt_inj.mp hz.2⟩
    rw [happly, checked, fault?, if_neg hzero]
    cases overflows with
    | true =>
      rw [if_neg fun hin => nomatch hflag.mpr hin]
      rfl
    | false =>
      have hin := hflag.mp rfl
      rw [if_pos hin, ← bmod_of_inRange hin, ← hresult]
      rfl

/-! ## Operands without effect -/

theorem map_toInt_inj {x y : Except Error Int64} (h : x.map Int64.toInt = y.map Int64.toInt) :
    x = y := by
  cases x <;> cases y <;> simp_all [Except.map, Int64.toInt_inj]

theorem apply_eq_ok {op : Operator} {a b c : Int64} (hop : op ≠ divide)
    (h : op.exact a.toInt b.toInt = c.toInt) : op.apply a b = .ok c := by
  refine map_toInt_inj ?_
  rw [map_apply, checked_of_inRange hop (h ▸ inRange_toInt c), h]
  rfl

/-- A result out of range is an overflow, whatever the operation is. -/
theorem apply_eq_overflow {op : Operator} {a b : Int64} (hop : op ≠ divide)
    (h : ¬ InRange (op.exact a.toInt b.toInt)) : op.apply a b = .error .overflow := by
  have hmap := map_apply op a b
  rw [checked, fault?, if_neg fun hzero => hop hzero.1, if_neg h] at hmap
  cases happly : op.apply a b with
  | error e =>
    rw [happly] at hmap
    cases hmap
    rfl
  | ok c =>
    rw [happly] at hmap
    nomatch hmap

theorem apply_add_zero (n : Int64) : add.apply 0 n = .ok n :=
  apply_eq_ok (by decide) (Int.zero_add n.toInt)

theorem apply_multiply_one (n : Int64) : multiply.apply 1 n = .ok n :=
  apply_eq_ok (by decide) (Int.one_mul n.toInt)

end Operator

end TreeText
