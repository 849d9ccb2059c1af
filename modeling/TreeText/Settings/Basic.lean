import TreeText.Numeral
import TreeText.Value

/-!
# Settings

There are two settings: how trees are laid out, and how many spaces the indented layout uses for each
level. This module says which values they take, also from values of other types: a truth value counts
as a one or a zero, a fraction is rounded, and a text may hold a number or a word for a truth value.

Results:
* `Layout.ofName?_name`: every layout is found by its name.
* `indentOf_integer`: which integers are indents.
-/

namespace TreeText

/-- The ways to lay out a tree. -/
inductive Layout where
  | drawn
  | indented
  deriving DecidableEq, Repr

namespace Layout

/-- The name of a layout. -/
def name : Layout → String
  | drawn => "termtree"
  | indented => "indent"

/-- The layout of a name, written exactly. -/
def ofName? : String → Option Layout
  | "termtree" => some drawn
  | "indent" => some indented
  | _ => none

/-- The layout of a name in letters of any case. -/
def ofAnyCase? (s : String) : Option Layout := ofName? (s.map Char.toLower)

theorem ofName?_name (l : Layout) : ofName? l.name = some l := by
  cases l <;> rfl

end Layout

/-- The settings: the layout to use if none is asked for, and the width of an indent. -/
structure Settings where
  layout : Layout
  indent : UInt64
  deriving DecidableEq, Repr

/-- Why settings cannot be had. -/
inductive SettingsError where
  /-- They cannot be loaded, for the given reason. -/
  | load (reason : String)
  /-- They cannot be written as a file, for the given reason. -/
  | render (reason : String)
  deriving DecidableEq, Repr

/-- What the user is told. -/
def SettingsError.message : SettingsError → String
  | load reason => "config error: " ++ reason
  | render reason => "config error: cannot render settings: " ++ reason

namespace Settings

/-- The settings that hold where nothing else is said. -/
def default : Settings := ⟨.drawn, 1⟩

/-- The layout that a value stands for: its name, or a table with that name as its only key. -/
def layoutOf : Value → Except SettingsError Layout
  | .text s | .table [(s, _)] =>
    match Layout.ofAnyCase? s with
    | some l => .ok l
    | none => .error (.load ("show_style: there is no style " ++ s))
  | _ => .error (.load "show_style: the name of a style is expected")

/-- The number that a text holds: digits, perhaps behind a plus. -/
def natural? (s : String) : Option Nat :=
  match s.toList with
  | '+' :: ds => Numeral.ofDigits? ds
  | ds => Numeral.ofDigits? ds

/-- The indent that a text stands for. -/
def indentOfText (s : String) : Option UInt64 :=
  let word := s.map Char.toLower
  if word = "true" || word = "on" || word = "yes" then some 1
  else if word = "false" || word = "off" || word = "no" then some 0
  else
    match natural? s with
    | some n => if n < UInt64.size then some (UInt64.ofNat n) else none
    | none => none

/-- The indent that a value stands for. A fraction is rounded, a half away from zero, and what is
outside the range of 64 bits becomes the nearest number inside. -/
def indentOf : Value → Except SettingsError UInt64
  | .integer n =>
    if 0 ≤ n ∧ n < UInt64.size then .ok (UInt64.ofNat n.toNat)
    else .error (.load ("indent: " ++ toString n ++ " is out of range"))
  | .boolean b => .ok (if b then 1 else 0)
  | .float x => .ok x.round.toUInt64
  | .text s =>
    match indentOfText s with
    | some n => .ok n
    | none => .error (.load "indent: the text is no number")
  | _ => .error (.load "indent: a number is expected")

theorem indentOf_integer {n : Int} {w : UInt64} :
    indentOf (.integer n) = .ok w ↔ n = w.toNat := by
  have hsize : UInt64.size = 18446744073709551616 := rfl
  simp only [indentOf, hsize]
  constructor
  · intro h
    split at h
    · rename_i hn
      have hw : UInt64.ofNat n.toNat = w := by simpa using h
      rw [← hw, UInt64.toNat_ofNat']
      omega
    · nomatch h
  · rintro rfl
    have := w.toNat_lt
    rw [if_pos (by omega)]
    simp

end Settings

end TreeText
