import TreeText.Toml.Date
import TreeText.Toml.Number
import TreeText.Toml.Table
import TreeText.Toml.Text

/-!
# Documents

A document is a list of lines: entries `key = value`, headers of tables in brackets, headers of
elements of lists of tables in double brackets, and lines that hold nothing or a comment. Values are
strings, numbers, truth values, dates, arrays, and tables in braces. An array may go over several
lines and end with a comma, a table in braces may not.
-/

namespace TreeText.Toml

/-! ## Values -/

/-- A truth value. -/
def boolean : Reader Bool :=
  (do Reader.word "true"; pure true) <|> (do Reader.word "false"; pure false)

/-- A number, or a date or time. -/
def numberOrDate : Reader Item :=
  (do pure (.date (← dateTime))) <|> (do pure (.value (.float (← finiteFloat)))) <|>
  (do pure (.value (.float (← specialFloat)))) <|> (do pure (.value (.integer (← integer))))

/-- A value that has no parts. -/
def scalar : Reader Item := do
  match ← Reader.peek with
  | some '"' | some '\'' => pure (.value (.text (← text)))
  | some 't' | some 'f' => pure (.value (.boolean (← boolean)))
  | _ => numberOrDate

/-- An array with elements that `element` reads. -/
def array (element : Reader Item) : Reader Item := do
  Reader.char '['
  let elements ← Reader.separated (do filler; let item ← element; filler; pure item) ','
  let _ ← Reader.maybe (if elements.isEmpty then failure else Reader.char ',')
  filler
  Reader.char ']'
  pure (.array elements)

/-- A table in braces with values that `element` reads. -/
def inlineTable (element : Reader Item) : Reader Item := do
  Reader.char '\x7b'
  let pairs ← Reader.separated
    (do
      let key ← dottedKey
      Reader.char '='
      spaces
      let item ← element
      spaces
      pure (key, item)) ','
  spaces
  Reader.char '\x7d'
  match Entries.ofPairs? pairs with
  | some entries => pure (.table .braces entries)
  | none => failure

/-- A value with at most `depth` levels of arrays and tables in it. -/
def value : Nat → Reader Item
  | 0 => scalar
  | depth + 1 => do
    match ← Reader.peek with
    | some '[' => array (value depth)
    | some '\x7b' => inlineTable (value depth)
    | _ => scalar

/-! ## Lines -/

/-- What a line holds. -/
inductive Line where
  | empty
  | entry (path : List String) (key : String) (item : Item)
  | table (path : List String) (key : String)
  | element (path : List String) (key : String)

/-- A header, with `marks` brackets on each side. -/
def header (marks : String × String) (make : List String → String → Line) : Reader Line := do
  Reader.word marks.1
  let (path, key) ← dottedKey
  Reader.word marks.2
  trailing
  pure (make path key)

/-- An entry. -/
def entry : Reader Line := do
  let (path, key) ← dottedKey
  Reader.char '='
  spaces
  let item ← value (depthLimit - 1)
  trailing
  pure (.entry path key item)

/-- One line, from its first character that is no space. -/
def line : Reader Line := do
  match ← Reader.peek with
  | none => failure
  | some '\n' => lineEnd; pure .empty
  | some '#' => comment; lineEnd; pure .empty
  | some '[' => header ("[[", "]]") .element <|> header ("[", "]") .table
  | some _ => entry

/-- All lines of a text, or nothing if it has another form. -/
def lines (s : List Char) : Option (List Line) :=
  let all := Reader.many (do let l ← line; spaces; pure l) (s.dropWhile isSpace)
  if all.2.isEmpty then some all.1 else none

/-! ## Documents -/

/-- The entries so far, and the header below which the next entries belong. -/
structure Draft where
  entries : Entries
  header : List String

/-- Takes in one line. -/
def Draft.add (d : Draft) : Line → Option Draft
  | .empty => some d
  | .entry path key item =>
    (d.entries.addValueBelow d.header path key item).map fun es => ⟨es, d.header⟩
  | .table path key => (d.entries.addTable path key).map fun es => ⟨es, path ++ [key]⟩
  | .element path key => (d.entries.addElement path key).map fun es => ⟨es, path ++ [key]⟩

/-- The text with single newlines at the ends of lines. -/
def unixLines : List Char → List Char
  | '\r' :: '\n' :: rest => '\n' :: unixLines rest
  | c :: rest => c :: unixLines rest
  | [] => []

/-- The text without a mark of the byte order at its start. -/
def withoutMark : List Char → List Char
  | '\ufeff' :: rest => rest
  | s => s

/-- The table that a document holds, or nothing if it is malformed. -/
def document (source : String) : Option (List (String × Value)) := do
  let all ← lines (unixLines (withoutMark source.toList))
  let draft ← all.foldlM Draft.add ⟨[], []⟩
  match ← tableValue? draft.entries with
  | .table entries => some entries
  | _ => none

end TreeText.Toml
