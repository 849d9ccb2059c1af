import TreeText.Error

/-!
# Operators

The four operators of arithmetic, how many operands they take, and what they compute on signed
64-bit integers. A result that does not fit in 64 bits is a fault, and so is a division by zero;
division drops the fraction.

Results:
* `Operator.ofSymbol?_symbol`, `Operator.symbol_of_ofSymbol?`: symbols stand for operators one to
  one.
* `Operator.two_le_of_accepts`: every operator takes two operands at least.
-/

namespace TreeText

/-- The four operators. -/
inductive Operator where
  | add
  | subtract
  | multiply
  | divide
  deriving DecidableEq, Repr

namespace Operator

/-- The operator that a symbol stands for. -/
def ofSymbol? : String → Option Operator
  | "+" => some add
  | "-" => some subtract
  | "*" => some multiply
  | "/" => some divide
  | _ => none

/-- How an operator is written. -/
def symbol : Operator → String
  | add => "+"
  | subtract => "-"
  | multiply => "*"
  | divide => "/"

/-- Whether an operator takes `n` operands: sums and products take two or more, differences and
quotients exactly two. -/
def accepts : Operator → Nat → Bool
  | add, n | multiply, n => 2 ≤ n
  | subtract, n | divide, n => n = 2

/-- The result unless the computation has left the range of 64 bits. -/
def unlessOverflow (overflows : Bool) (result : Int64) : Except Error Int64 :=
  if overflows then .error .overflow else .ok result

/-- What an operator makes of two numbers. -/
def apply : Operator → Int64 → Int64 → Except Error Int64
  | add, a, b => unlessOverflow (a.toBitVec.saddOverflow b.toBitVec) (a + b)
  | subtract, a, b => unlessOverflow (a.toBitVec.ssubOverflow b.toBitVec) (a - b)
  | multiply, a, b => unlessOverflow (a.toBitVec.smulOverflow b.toBitVec) (a * b)
  | divide, a, b =>
    if b = 0 then .error .divisionByZero
    else unlessOverflow (a.toBitVec.sdivOverflow b.toBitVec) (a / b)

theorem ofSymbol?_symbol (op : Operator) : ofSymbol? op.symbol = some op := by
  cases op <;> rfl

theorem symbol_of_ofSymbol? {s : String} {op : Operator} (h : ofSymbol? s = some op) :
    op.symbol = s := by
  unfold ofSymbol? at h
  split at h <;> cases h <;> rfl

theorem two_le_of_accepts {op : Operator} {n : Nat} (h : op.accepts n = true) : 2 ≤ n := by
  cases op <;> simp [accepts] at h <;> omega

end Operator

end TreeText
