/-!
# Coloured output

Parts of the output are painted if the output goes to a terminal. Variables of the environment can
force or forbid it.

Results:
* `paint_off`: without paint a text is left as it is.
-/

namespace TreeText

/-- Whether output is painted: `CLICOLOR_FORCE` forces it, `NO_COLOR` forbids it, and else it goes by
`CLICOLOR` and by whether the output is a terminal. -/
def paints (vars : List (String × String)) (terminal : Bool) : Bool :=
  let isOn (name : String) : Bool :=
    match vars.lookup name with
    | some text => text ≠ "0"
    | none => false
  isOn "CLICOLOR_FORCE"
    || ((vars.lookup "NO_COLOR").isNone && vars.lookup "CLICOLOR" ≠ some "0" && terminal)

/-- A text between the codes that turn a paint on and all paint off. -/
def paint (on : Bool) (codes : String) (text : String) : String :=
  if on then "\x1b[" ++ codes ++ "m" ++ text ++ "\x1b[0m" else text

/-- Green, for labels. -/
def labelPaint : String := "32"

/-- Bold red, for the word in front of an error. -/
def errorPaint : String := "1;31"

/-- Bold cyan, for headers. -/
def headerPaint : String := "1;36"

theorem paint_off (codes text : String) : paint false codes text = text := rfl

end TreeText
