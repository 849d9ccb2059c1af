import TreeText.Numeral
import TreeText.Reader

/-!
# Keys of settings as paths

The key of a setting can lead into tables and arrays: `a.b` is the entry `b` of the table `a`, and
`a[2]` is an element of the array `a`. Keys do not depend on the case of letters: it is the lower
case of a key that has such a form, or else is the name of an entry as it stands.

Results:
* `path?_of_name`: a name without points and brackets is a path of one step.
-/

namespace TreeText.Settings

/-- A step into a value. -/
inductive KeyStep where
  /-- To an entry of a table. -/
  | name (k : String)
  /-- To an element of an array; a negative index counts from the end. -/
  | index (i : Int)
  deriving DecidableEq, Repr

/-! ## Lower case -/

/-- The lower case of a character. Only names in ASCII stand in paths or are looked up, so what is
outside ASCII stays as it is, except the sign of the unit kelvin: it is the only character there
with a lower case in ASCII. -/
def lowerChar (c : Char) : Char := if c = '\u212a' then 'k' else c.toLower

/-- A key in lower case. -/
def lowerCase (key : String) : String := key.map lowerChar

/-! ## Paths -/

/-- The characters of names in paths. -/
def isNameChar (c : Char) : Bool := c.isAlphanum || c = '_' || c = '-' || c = ' '

/-- A name. -/
def nameStep : Reader KeyStep := do
  pure (.name (String.ofList (← Reader.takeWhile1 isNameChar)))

/-- A point and a name. -/
def childStep : Reader KeyStep := do
  Reader.char '.'
  nameStep

/-- An index in brackets. -/
def indexStep : Reader KeyStep := do
  let blanks := Reader.takeWhile fun c => c = ' ' || c = '\t'
  Reader.char '['
  let _ ← blanks
  let minus ← Reader.maybe (Reader.char '-')
  let ds ← Reader.takeWhile1 Char.isDigit
  let _ ← blanks
  Reader.char ']'
  let n : Int := Numeral.value 10 ds
  let n := if minus.isSome then -n else n
  if Numeral.fitsInt64 n then pure (.index n) else failure

/-- The path that the characters of a key have the form of. -/
def path? (cs : List Char) : Option (List KeyStep) :=
  match nameStep cs with
  | none => none
  | some (first, rest) =>
    let more := Reader.many (childStep <|> indexStep) rest
    if more.2.isEmpty then some (first :: more.1) else none

/-- The path of a key. -/
def keyPath (key : String) : List KeyStep :=
  let key := lowerCase key
  (path? key.toList).getD [.name key]

theorem path?_of_name {cs : List Char} (hne : cs ≠ []) (h : ∀ c ∈ cs, isNameChar c = true) :
    path? cs = some [.name (String.ofList cs)] := by
  have htake : cs.takeWhile isNameChar = cs := by
    simpa using @List.takeWhile_append_of_pos _ isNameChar cs [] h
  have hdrop : cs.dropWhile isNameChar = [] := by
    simpa using @List.dropWhile_append_of_pos _ isNameChar cs [] h
  have hstep : nameStep cs = some (.name (String.ofList cs), []) := by
    simp only [nameStep, bind, StateT.bind, Reader.takeWhile1, htake, hdrop, List.isEmpty_iff, hne,
      if_false]
    rfl
  have hmore : (childStep <|> indexStep) [] = none := rfl
  simp [path?, hstep, Reader.many_eq, hmore]

end TreeText.Settings
