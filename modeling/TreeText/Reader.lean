/-!
# Readers

A reader takes characters from the front of a text and gives a result, or fails. Readers are put
together in sequence and, with `<|>`, by choice: the second one is tried where the first one fails.

Results:
* `Reader.many_eq`: repetition goes on while a reader succeeds and takes something.
-/

namespace TreeText

/-- A result and the characters that are left. -/
abbrev Reader := StateT (List Char) Option

namespace Reader

variable {α : Type}

/-- The next character, which stays unread. -/
def peek : Reader (Option Char) := fun s => some (s.head?, s)

/-- One character that passes a test. -/
def satisfy (p : Char → Bool) : Reader Char
  | [] => none
  | c :: rest => if p c then some (c, rest) else none

/-- The character `c`. -/
def char (c : Char) : Reader Unit
  | [] => none
  | d :: rest => if d = c then some ((), rest) else none

/-- The characters of `w`, in order. -/
def word (w : String) : Reader Unit := fun s =>
  if w.toList.isPrefixOf s then some ((), s.drop w.length) else none

/-- All characters up to the first one that fails a test. -/
def takeWhile (p : Char → Bool) : Reader (List Char) := fun s =>
  some (s.takeWhile p, s.dropWhile p)

/-- Like `takeWhile`, but there must be one character at least. -/
def takeWhile1 (p : Char → Bool) : Reader (List Char) := fun s =>
  if (s.takeWhile p).isEmpty then none else some (s.takeWhile p, s.dropWhile p)

/-- What `r` reads, or nothing where it fails. -/
def maybe (r : Reader α) : Reader (Option α) := fun s =>
  match r s with
  | some (a, rest) => some (some a, rest)
  | none => some (none, s)

/-- The text that `r` takes. -/
def written (r : Reader α) : Reader String := fun s =>
  (r s).map fun (_, rest) => (String.ofList (s.take (s.length - rest.length)), rest)

/-- What `r` reads when it is repeated until it fails or takes nothing. -/
def many (r : Reader α) (s : List Char) : List α × List Char :=
  match r s with
  | none => ([], s)
  | some (a, rest) =>
    if rest.length < s.length then (a :: (many r rest).1, (many r rest).2) else ([], s)
termination_by s.length

/-- What `r` reads, as often as it can be read with `separator` in between. -/
def separated (r : Reader α) (separator : Char) : Reader (List α) := fun s =>
  match r s with
  | none => some ([], s)
  | some (a, rest) =>
    let more := many (do char separator; r) rest
    some (a :: more.1, more.2)

theorem many_eq (r : Reader α) (s : List Char) :
    many r s = match r s with
      | none => ([], s)
      | some (a, rest) =>
        if rest.length < s.length then (a :: (many r rest).1, (many r rest).2) else ([], s) := by
  rw [many]

end Reader

end TreeText
