import TreeText.Decimal
import TreeText.Reader

/-!
# Numbers

Between two digits of a number one underscore may stand. A decimal integer may have a sign and has no
zeros in front; an integer in base sixteen, eight or two has a mark and no sign. Integers are signed
64-bit integers. A number with a fraction or an exponent is a floating-point number; it must not be
too large for one, unless it is negative.

Results:
* `digitRun_of_digits`: a run of digits ends where something else follows.
-/

namespace TreeText.Toml

/-- The digits of a number after its first digit, up to what cannot belong to it. -/
def digitRun (p : Char → Bool) : List Char → List Char × List Char
  | [] => ([], [])
  | c :: rest =>
    if p c then (c :: (digitRun p rest).1, (digitRun p rest).2)
    else if c = '_' && rest.head?.any p then digitRun p rest
    else ([], c :: rest)

/-- One or more digits. -/
def digits (p : Char → Bool) : Reader (List Char)
  | [] => none
  | c :: rest => if p c then some (c :: (digitRun p rest).1, (digitRun p rest).2) else none

/-- The digits of a decimal integer: a single zero, or digits that start with another one. -/
def wholeDigits : Reader (List Char)
  | '0' :: rest => some (['0'], rest)
  | s => digits Char.isDigit s

/-- An integer in the range of 64 bits. -/
def inRange (n : Int) : Reader Int :=
  if Numeral.fitsInt64 n then pure n else failure

/-- A decimal integer. -/
def decimalInteger : Reader Int := do
  let negative ← Decimal.sign
  let ds ← wholeDigits
  inRange (Decimal.signed negative ds)

/-- An integer of another base behind its mark. -/
def markedInteger (mark : String) (base : Nat) : Reader Int := do
  Reader.word mark
  let ds ← digits (Numeral.isDigitOf base)
  inRange (Numeral.value base ds)

/-- An integer. The mark of another base decides about what follows. -/
def integer : Reader Int
  | '0' :: 'x' :: rest => markedInteger "0x" 16 ('0' :: 'x' :: rest)
  | '0' :: 'o' :: rest => markedInteger "0o" 8 ('0' :: 'o' :: rest)
  | '0' :: 'b' :: rest => markedInteger "0b" 2 ('0' :: 'b' :: rest)
  | s => decimalInteger s

/-- A number with a fraction or an exponent. -/
def finiteFloat : Reader Float := do
  let negative ← Decimal.sign
  let whole ← wholeDigits
  let decimal ←
    (do
      let e ← Decimal.exponent (digits Char.isDigit)
      pure (Decimal.ofDigits negative whole [] e)) <|>
    (do
      Reader.char '.'
      let fraction ← digits Char.isDigit
      let e ← Reader.maybe (Decimal.exponent (digits Char.isDigit))
      pure (Decimal.ofDigits negative whole fraction (e.getD 0)))
  let x := decimal.toFloat
  if x.isInf && 0 < x then failure else pure x

/-- The words for infinity and for no number. -/
def specialFloat : Reader Float := do
  let negative ← Decimal.sign
  let x ← (do Reader.word "inf"; pure (1.0 / 0.0)) <|> (do Reader.word "nan"; pure (0.0 / 0.0))
  pure (if negative then -x else x)

theorem digitRun_of_digits {p : Char → Bool} {ds : List Char} (h : ∀ c ∈ ds, p c = true)
    {c : Char} (hc : p c = false) (hu : c ≠ '_') (rest : List Char) :
    digitRun p (ds ++ c :: rest) = (ds, c :: rest) := by
  induction ds with
  | nil => simp [digitRun, hc, hu]
  | cons d ds ih =>
    rw [List.cons_append, digitRun, if_pos (h d (by simp)), ih fun x hx => h x (by simp [hx])]

end TreeText.Toml
