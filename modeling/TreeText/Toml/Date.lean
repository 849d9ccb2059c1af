import TreeText.Numeral
import TreeText.Reader

/-!
# Dates and times

A date has a year, a month and a day that exists in that month; a time has hours, minutes and
seconds, where a leap second is allowed, and perhaps a fraction of a second. A date may be followed
by a time and then by an offset. Only their form matters here: the value is the text itself.
-/

namespace TreeText.Toml

/-- A number of exactly `n` digits that is at most `limit`. -/
def fixedNumber (n limit : Nat) : Reader Nat := fun s =>
  let ds := s.take n
  if ds.length = n ∧ ds.all Char.isDigit ∧ Numeral.value 10 ds ≤ limit then
    some (Numeral.value 10 ds, s.drop n)
  else none

/-- Whether a year has a 29th of February. -/
def isLeapYear (year : Nat) : Bool :=
  year % 4 = 0 && (year % 100 ≠ 0 || year % 400 = 0)

/-- How many days a month has; there are none in a month that does not exist. -/
def daysInMonth (year : Nat) : Nat → Nat
  | 2 => if isLeapYear year then 29 else 28
  | 4 | 6 | 9 | 11 => 30
  | 1 | 3 | 5 | 7 | 8 | 10 | 12 => 31
  | _ => 0

/-- A date. -/
def date : Reader Unit := do
  let year ← fixedNumber 4 9999
  Reader.char '-'
  let month ← fixedNumber 2 12
  Reader.char '-'
  let day ← fixedNumber 2 (daysInMonth year month)
  if day = 0 then failure else pure ()

/-- A time of the day. -/
def time : Reader Unit := do
  let _ ← fixedNumber 2 23
  Reader.char ':'
  let _ ← fixedNumber 2 59
  Reader.char ':'
  let _ ← fixedNumber 2 60
  let _ ← Reader.maybe do
    Reader.char '.'
    Reader.takeWhile1 Char.isDigit
  pure ()

/-- The offset of a time zone. -/
def offset : Reader Unit :=
  (do
    let _ ← Reader.satisfy fun c => c = 'Z' || c = 'z'
    pure ()) <|>
  (do
    let _ ← Reader.satisfy fun c => c = '+' || c = '-'
    let _ ← fixedNumber 2 23
    Reader.char ':'
    let _ ← fixedNumber 2 59
    pure ())

/-- A date with or without a time, or a time alone. -/
def dateTime : Reader String :=
  Reader.written do
    (do
      date
      let _ ← Reader.maybe do
        let _ ← Reader.satisfy fun c => c = 'T' || c = 't' || c = ' '
        time
        Reader.maybe offset
      pure ()) <|> time

end TreeText.Toml
