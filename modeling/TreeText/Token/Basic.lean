/-!
# Tokens of the text form

The text of a tree is made of parentheses and values. A value is a maximal run of characters that
are not delimiters; the delimiters are the two parentheses and the five blanks space, tab, newline,
carriage return and form feed. Blanks separate and are dropped; every other character, also every
other Unicode space, belongs to a value.

Results:
* `Scan.foldl_step`: what is read after some text does not depend on the tokens found before it.
* `tokenize_append_delimiter`: a delimiter cuts the text into two parts that are read on their own.
* `tokenize_value`: a text without delimiters is one value.
-/

namespace TreeText

/-- A token: a parenthesis or a value. -/
inductive Token where
  | opening
  | closing
  | value (text : String)
  deriving DecidableEq, Repr

namespace Token

/-- How a token is written. -/
def text : Token → String
  | opening => "("
  | closing => ")"
  | value text => text

/-- The token that a delimiter stands for: a parenthesis is one, a blank is none. -/
def ofDelimiter? (c : Char) : Option Token :=
  if c = '(' then some opening else if c = ')' then some closing else none

end Token

/-- The blanks: space, tab, newline, carriage return and form feed. -/
def isBlank (c : Char) : Bool :=
  c = ' ' || c = '\t' || c = '\n' || c = '\r' || c = '\x0c'

/-- The characters that no value holds. -/
def isDelimiter (c : Char) : Bool :=
  isBlank c || c = '(' || c = ')'

/-! ## Reading tokens -/

/-- A text read so far: the finished tokens and the characters of the value that is being read,
both with the last one first. -/
structure Scan where
  tokens : List Token
  run : List Char

namespace Scan

/-- Nothing read. -/
def empty : Scan := ⟨[], []⟩

/-- The tokens once the value that is being read, if there is one, is finished. -/
def finish (s : Scan) : List Token :=
  match s.run with
  | [] => s.tokens
  | run => .value (String.ofList run.reverse) :: s.tokens

/-- Reads one more character. -/
def step (s : Scan) (c : Char) : Scan :=
  if isDelimiter c then ⟨(Token.ofDelimiter? c).toList ++ s.finish, []⟩
  else ⟨s.tokens, c :: s.run⟩

/-- The tokens found earlier stay below those found later. -/
theorem foldl_step (cs : List Char) (tokens : List Token) (run : List Char) :
    (cs.foldl step ⟨tokens, run⟩).finish = (cs.foldl step ⟨[], run⟩).finish ++ tokens := by
  induction cs generalizing tokens run with
  | nil => cases run <;> simp [finish]
  | cons c cs ih =>
    simp only [List.foldl_cons, step]
    split
    · rw [ih ((Token.ofDelimiter? c).toList ++ _), ih ((Token.ofDelimiter? c).toList ++ _)]
      cases run <;> simp [finish]
    · exact ih tokens (c :: run)

/-- A run of characters that are not delimiters is gathered into the value that is being read. -/
theorem foldl_step_run {cs : List Char} (h : ∀ c ∈ cs, isDelimiter c = false) (s : Scan) :
    cs.foldl step s = ⟨s.tokens, cs.reverse ++ s.run⟩ := by
  induction cs generalizing s with
  | nil => rfl
  | cons c cs ih =>
    have hc := h c (by simp)
    rw [List.foldl_cons, ih fun d hd => h d (by simp [hd])]
    simp [step, hc]

end Scan

/-- The tokens of a list of characters. -/
def scan (cs : List Char) : List Token :=
  (cs.foldl Scan.step Scan.empty).finish.reverse

/-- The tokens of a text, in order. -/
def tokenize (text : String) : List Token :=
  scan text.toList

theorem scan_append_delimiter (a b : List Char) {d : Char} (h : isDelimiter d = true) :
    scan (a ++ d :: b) = scan a ++ (Token.ofDelimiter? d).toList ++ scan b := by
  simp only [scan, List.foldl_append, List.foldl_cons]
  rw [show Scan.step (a.foldl Scan.step Scan.empty) d
      = ⟨(Token.ofDelimiter? d).toList ++ (a.foldl Scan.step Scan.empty).finish, []⟩ by
    simp [Scan.step, h]]
  rw [Scan.foldl_step]
  cases Token.ofDelimiter? d <;> simp [Scan.empty]

theorem tokenize_append_delimiter (a b : String) {d : Char} (h : isDelimiter d = true) :
    tokenize (a ++ String.singleton d ++ b)
      = tokenize a ++ (Token.ofDelimiter? d).toList ++ tokenize b := by
  simp [tokenize, scan_append_delimiter _ _ h]

theorem tokenize_empty : tokenize "" = [] := rfl

theorem tokenize_value {u : String} (hne : u ≠ "") (h : ∀ c ∈ u.toList, isDelimiter c = false) :
    tokenize u = [.value u] := by
  have hrun : u.toList.reverse ≠ [] := by simpa using hne
  unfold tokenize scan
  rw [Scan.foldl_step_run h]
  simp [Scan.empty, Scan.finish]

end TreeText
