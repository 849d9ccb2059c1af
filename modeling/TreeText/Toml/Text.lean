import TreeText.Numeral
import TreeText.Reader

/-!
# Blanks, comments, strings and keys

Between the parts of a line stand spaces and tabs. A comment runs from a number sign to the end of
its line. Strings stand between quotes, and there are two kinds: in a basic string, between double
quotes, a backslash starts an escape; in a literal string, between single quotes, it is a character
like any other. A string between single quotes of its kind ends on its line; between triple quotes it
may hold line breaks, a line break right at its start is dropped, and one or two quotes may stand
right before the closing ones.

Ends of lines are expected to be single newlines here.
-/

namespace TreeText.Toml

/-- Spaces and tabs. -/
def isSpace (c : Char) : Bool := c = ' ' || c = '\t'

/-- The characters of comments and strings: tabs and all that are not control characters of ASCII. -/
def isPrintable (c : Char) : Bool := c = '\t' || (' ' ≤ c && c ≤ '~') || '\x7f' < c

/-- Skips spaces and tabs. -/
def spaces : Reader Unit := do
  let _ ← Reader.takeWhile isSpace
  pure ()

/-- Skips a comment. -/
def comment : Reader Unit := do
  Reader.char '#'
  let _ ← Reader.takeWhile isPrintable
  pure ()

/-- Skips the end of a line, or nothing at the end of the text. -/
def lineEnd : Reader Unit
  | [] => some ((), [])
  | c :: rest => if c = '\n' then some ((), rest) else none

/-- Skips spaces, a comment and the end of the line. -/
def trailing : Reader Unit := do
  spaces
  let _ ← Reader.maybe comment
  lineEnd

/-- The characters behind all spaces, newlines and comments. -/
def afterFiller (inComment : Bool) : List Char → List Char
  | [] => []
  | c :: rest =>
    if c = '\n' then afterFiller false rest
    else if inComment then if isPrintable c then afterFiller true rest else c :: rest
    else if isSpace c then afterFiller false rest
    else if c = '#' then afterFiller true rest
    else c :: rest

/-- Skips spaces, newlines and comments. -/
def filler : Reader Unit := fun s => some ((), afterFiller false s)

/-! ## Strings -/

/-- How far an escape has been read. -/
inductive Escape where
  /-- There is no escape. -/
  | outside
  /-- A backslash has been read. -/
  | started
  /-- `left` digits of a code point are still to come, those read so far make `code`. -/
  | code (left code : Nat)
  /-- A backslash and spaces have been read; the end of the line must follow. -/
  | lineEnd
  /-- The end of a line was escaped: spaces and newlines are dropped. -/
  | dropping

/-- Whether a quote ends the string now. -/
def Escape.allowsQuote : Escape → Bool
  | outside | dropping => true
  | _ => false

/-- Whether spaces and newlines are dropped. -/
def Escape.isDropping : Escape → Bool
  | dropping => true
  | _ => false

/-- The character that a letter behind a backslash stands for. -/
def escaped? : Char → Option Char
  | 'b' => some '\x08'
  | 't' => some '\t'
  | 'n' => some '\n'
  | 'f' => some '\x0c'
  | 'r' => some '\r'
  | '"' => some '"'
  | '\\' => some '\\'
  | _ => none

/-- The kind of a string: whether backslashes start escapes, and whether it may hold line breaks. -/
structure Quoting where
  escapes : Bool
  lines : Bool

/-- Takes one character of a string that is not a quote; `acc` holds the characters so far, the last
one first. -/
def textStep (q : Quoting) (acc : List Char) : Escape → Char → Option (List Char × Escape)
  | .started, c =>
    match escaped? c with
    | some d => some (d :: acc, .outside)
    | none =>
      if c = 'u' then some (acc, .code 4 0)
      else if c = 'U' then some (acc, .code 8 0)
      else if q.lines && isSpace c then some (acc, .lineEnd)
      else if q.lines && c = '\n' then some (acc, .dropping)
      else none
  | .code left code, c =>
    if !Numeral.isDigitOf 16 c then none
    else
      let code := 16 * code + Numeral.digit c
      if 1 < left then some (acc, .code (left - 1) code)
      else if code.isValidChar then some (Char.ofNat code :: acc, .outside)
      else none
  | .lineEnd, c =>
    if isSpace c then some (acc, .lineEnd)
    else if c = '\n' then some (acc, .dropping)
    else none
  | e, c =>
    if e.isDropping && (isSpace c || c = '\n') then some (acc, .dropping)
    else if q.escapes && c = '\\' then some (acc, .started)
    else if isPrintable c || (q.lines && c = '\n') then some (c :: acc, .outside)
    else none

/-- The rest of a string that ends at the next quote. -/
def lineText (escapes : Bool) (quote : Char) (acc : List Char) (e : Escape) :
    List Char → Option (String × List Char)
  | [] => none
  | c :: rest =>
    if c = quote && e.allowsQuote then some (String.ofList acc.reverse, rest)
    else
      match textStep ⟨escapes, false⟩ acc e c with
      | none => none
      | some (acc, e) => lineText escapes quote acc e rest

/-- The rest of a string that ends at three quotes; `quotes` have just been read, and up to two of
them can belong to the string. -/
def blockText (escapes : Bool) (quote : Char) (acc : List Char) (e : Escape) (quotes : Nat) :
    List Char → Option (String × List Char)
  | [] => if 3 ≤ quotes then some (ending acc (quotes - 3), []) else none
  | c :: rest =>
    if c = quote && e.allowsQuote then
      if quotes = 4 then some (ending acc 2, rest)
      else blockText escapes quote acc .outside (quotes + 1) rest
    else if 3 ≤ quotes then some (ending acc (quotes - 3), c :: rest)
    else
      match textStep ⟨escapes, true⟩ (List.replicate quotes quote ++ acc) e c with
      | none => none
      | some (acc, e) => blockText escapes quote acc e 0 rest
where
  /-- The text with `n` quotes at its end. -/
  ending (acc : List Char) (n : Nat) : String :=
    String.ofList (acc.reverse ++ List.replicate n quote)

/-- A string that ends on its line. -/
def lineString : Reader String
  | '"' :: rest => lineText true '"' [] .outside rest
  | '\'' :: rest => lineText false '\'' [] .outside rest
  | _ => none

/-- A string of either kind. -/
def text : Reader String
  | '"' :: '"' :: '"' :: '\n' :: rest => blockText true '"' [] .outside 0 rest
  | '"' :: '"' :: '"' :: rest => blockText true '"' [] .outside 0 rest
  | '\'' :: '\'' :: '\'' :: '\n' :: rest => blockText false '\'' [] .outside 0 rest
  | '\'' :: '\'' :: '\'' :: rest => blockText false '\'' [] .outside 0 rest
  | s => lineString s

/-! ## Keys -/

/-- The characters of keys without quotes. -/
def isBare (c : Char) : Bool := c.isAlphanum || c = '_' || c = '-'

/-- A key between spaces. -/
def simpleKey : Reader String := do
  spaces
  let key ← lineString <|> (do pure (String.ofList (← Reader.takeWhile1 isBare)))
  spaces
  pure key

/-- How deep arrays and tables may be nested, and how long a dotted key may be: less than this. -/
def depthLimit : Nat := 80

/-- A dotted key: the keys of the tables on the way, and the last key. -/
def dottedKey : Reader (List String × String) := do
  let keys ← Reader.separated simpleKey '.'
  match keys.reverse with
  | last :: tables =>
    if keys.length < depthLimit then pure (tables.reverse, last) else failure
  | [] => failure

end TreeText.Toml
