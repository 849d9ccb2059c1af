/-!
# What can go wrong with a tree or an expression

One type holds every cause of failure of the tree and expression operations. Errors in the text of
a tree (`Error.isSyntax`) and faults of arithmetic (`Error.isArithmetic`) are told apart, because
the command line answers them with different exit codes.

Results:
* `Error.not_isSyntax_and_isArithmetic`: no error is of both kinds.
-/

namespace TreeText

/-- The causes of failure. -/
inductive Error where
  /-- A token stands where it cannot stand; `text` is how it is written. -/
  | unexpectedToken (text : String)
  /-- The text stops before the tree is complete. -/
  | unexpectedEnd
  /-- A block lies deeper than `limit` levels. -/
  | tooDeep (limit : Nat)
  /-- The tree `text` is not an arithmetic expression. -/
  | invalidExpression (text : String)
  /-- The position `index` was asked of a node with `length` children. -/
  | indexOutOfRange (index length : Nat)
  /-- A divisor has the value zero. -/
  | divisionByZero
  /-- A result does not fit in 64 bits. -/
  | overflow
  deriving DecidableEq, Repr

namespace Error

/-- What the user is told. -/
def message : Error → String
  | unexpectedToken text => "unexpected token: " ++ text
  | unexpectedEnd => "unexpected end of input"
  | tooDeep limit => "nesting deeper than " ++ toString limit ++ " levels"
  | invalidExpression text => "invalid expression: " ++ text
  | indexOutOfRange index length =>
    "index " ++ toString index ++ " out of range for node with " ++ toString length ++ " children"
  | divisionByZero => "division by zero"
  | overflow => "integer overflow"

/-- Errors found while reading the text of a tree. -/
def isSyntax : Error → Bool
  | unexpectedToken _ | unexpectedEnd | tooDeep _ => true
  | _ => false

/-- Errors found while evaluating an expression. -/
def isArithmetic : Error → Bool
  | divisionByZero | overflow => true
  | _ => false

theorem not_isSyntax_and_isArithmetic (e : Error) : ¬ (e.isSyntax = true ∧ e.isArithmetic = true) := by
  cases e <;> simp [isSyntax, isArithmetic]

end Error

end TreeText
