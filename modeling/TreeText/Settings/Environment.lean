import TreeText.Decimal
import TreeText.Settings.Store

/-!
# Settings in the environment

A variable whose name starts with `ARBOR_`, in letters of either case, sets the key that follows; two
underscores in the key stand for a point. The text of the variable is a truth value, an integer or a
number if it can be read as one, and else a text.

Results:
* `variableValue_of_integer`: the text of an integer is the integer, not a number with a fraction.
-/

namespace TreeText.Settings

/-- What the names of variables start with, in lower case. -/
def variablePrefix : String := "arbor_"

/-- The characters with each pair of underscores replaced by a point. -/
def pointed : List Char → List Char
  | '_' :: '_' :: rest => '.' :: pointed rest
  | c :: rest => c :: pointed rest
  | [] => []

/-- The key that a variable sets. -/
def variableKey? (name : String) : Option String :=
  let lower := (lowerCase name).toList
  if variablePrefix.toList.isPrefixOf lower then
    some (String.ofList (pointed (lower.drop variablePrefix.length)))
  else none

/-! ## Numbers in variables -/

/-- The signed 64-bit integer that a text is: a sign and digits. -/
def integer? (text : String) : Option Int :=
  match Decimal.sign text.toList with
  | none => none
  | some (negative, ds) =>
    if ds.isEmpty || !ds.all Char.isDigit then none
    else
      let n := Decimal.signed negative ds
      if Numeral.fitsInt64 n then some n else none

/-- The digits of a number behind its sign: before and behind the point, not all missing, and an
exponent. -/
def unsignedDecimal (negative : Bool) : Reader Decimal := do
  let whole ← Reader.takeWhile Char.isDigit
  let point ← Reader.maybe (Reader.char '.')
  let fraction ← if point.isSome then Reader.takeWhile Char.isDigit else pure []
  let e ← Reader.maybe (Decimal.exponent (Reader.takeWhile1 Char.isDigit))
  if whole.isEmpty && fraction.isEmpty then failure
  else pure (Decimal.ofDigits negative whole fraction (e.getD 0))

/-- The floating-point number that a text is. -/
def float? (text : String) : Option Float :=
  match Decimal.sign text.toList with
  | none => none
  | some (negative, rest) =>
    let word := (String.ofList rest).map Char.toLower
    let signed (x : Float) := if negative then -x else x
    if word = "inf" || word = "infinity" then some (signed (1.0 / 0.0))
    else if word = "nan" then some (signed (0.0 / 0.0))
    else
      match unsignedDecimal negative rest with
      | some (x, []) => some x.toFloat
      | _ => none

/-- The value of a variable with the given text. -/
def variableValue (text : String) : Value :=
  let word := text.map Char.toLower
  if word = "true" then .boolean true
  else if word = "false" then .boolean false
  else
    match integer? text, float? text with
    | some n, _ => .integer n
    | none, some x => .float x
    | none, none => .text text

/-- The layer of the variables of an environment. -/
def environmentLayer (vars : List (String × String)) : Layer :=
  vars.filterMap fun v => (variableKey? v.1).map fun key => (key, variableValue v.2)

theorem variableValue_of_integer {text : String} {n : Int} (h : integer? text = some n)
    (hword : ∀ b : Bool, text.map Char.toLower ≠ toString b) : variableValue text = .integer n := by
  have htrue : text.map Char.toLower ≠ "true" := hword true
  have hfalse : text.map Char.toLower ≠ "false" := hword false
  simp [variableValue, htrue, hfalse, h]

end TreeText.Settings
