import TreeText.Error
import TreeText.Token.Stream
import TreeText.Tree.Basic

/-!
# Reading trees

A tree is a value, or a value and a block: an opening parenthesis, one or more trees and a closing
one. The outermost block may leave out its opening parenthesis. Blocks may be nested up to
`maxDepth` levels.

The blocks that are open while a text is read form a stack. A value is not yet a child of the
innermost block when it is read, because a block of its own may follow it; it waits until the next
token has been seen.

Results:
* `Block.read_append`: a block that is complete does not depend on what follows it.
-/

namespace TreeText

/-- The deepest level at which a block may lie; the outermost block lies at level one. -/
def maxDepth : Nat := 1000

/-- An open block: the value it belongs to, the finished children, the last one first, and the value
that waits, if there is one. -/
structure Block where
  root : String
  finished : List (Tree String)
  waiting : Option String

namespace Block

/-- A block whose opening parenthesis has just been read. -/
def start (root : String) : Block := ⟨root, [], none⟩

/-- All children read so far, the last one first; a waiting value is a leaf. -/
def settled (b : Block) : List (Tree String) :=
  match b.waiting with
  | none => b.finished
  | some v => .leaf v :: b.finished

/-- The tree that the block makes when it ends here. -/
def toTree (b : Block) : Tree String := .node b.root b.settled.reverse

/-- Reads a value. -/
def addValue (b : Block) (v : String) : Block := ⟨b.root, b.settled, some v⟩

/-- Takes in the tree of an inner block that has ended. -/
def addTree (b : Block) (t : Tree String) : Block := ⟨b.root, t :: b.finished, none⟩

/-- Reads tokens until the outermost of the open blocks ends. `depth` is the level of the innermost
block `b`, and `outer` are the blocks around it, the nearest one first. Gives the finished tree and
the tokens behind it. -/
def read (depth : Nat) (b : Block) (outer : List Block) :
    List Token → Except Error (Tree String × List Token)
  | [] => .error .unexpectedEnd
  | .value v :: rest => read depth (b.addValue v) outer rest
  | .opening :: rest =>
    match b.waiting with
    | none => .error (.unexpectedToken Token.opening.text)
    | some v =>
      if depth < maxDepth then read (depth + 1) (start v) ({ b with waiting := none } :: outer) rest
      else .error (.tooDeep maxDepth)
  | .closing :: rest =>
    if b.settled.isEmpty then .error (.unexpectedToken Token.closing.text)
    else
      match outer with
      | [] => .ok (b.toTree, rest)
      | parent :: outer => read (depth - 1) (parent.addTree b.toTree) outer rest

/-- Reads the block of the value `root` at level `depth`, with its opening parenthesis or without,
from a stream, and gives the tree and what is left of the stream. -/
def ofStream (root : String) (depth : Nat) (s : TokenStream) :
    Except Error (Tree String × TokenStream) :=
  if depth ≤ maxDepth then
    match s.toList with
    | .opening :: rest => (read depth (start root) [] rest).map fun r => (r.1, ⟨none, r.2⟩)
    | tokens => (read depth (start root) [] tokens).map fun r => (r.1, ⟨none, r.2⟩)
  else .error (.tooDeep maxDepth)

theorem read_append {depth : Nat} {b : Block} {outer : List Block} {tokens rest : List Token}
    {t : Tree String} (h : read depth b outer tokens = .ok (t, rest)) (more : List Token) :
    read depth b outer (tokens ++ more) = .ok (t, rest ++ more) := by
  induction tokens generalizing depth b outer with
  | nil => nomatch h
  | cons token tokens ih =>
    rw [List.cons_append]
    cases token with
    | value v => exact ih h
    | opening =>
      unfold read at h ⊢
      split at h
      · nomatch h
      · split at h
        · rw [if_pos ‹_›]; exact ih h
        · nomatch h
    | closing =>
      unfold read at h ⊢
      split at h
      · nomatch h
      · rw [if_neg ‹_›]
        cases outer with
        | nil => cases h; rfl
        | cons parent outer => exact ih h

end Block

namespace Tree

/-- Reads a tree from a stream: a single value is a leaf, and a value with more behind it has a
block. -/
def ofStream (s : TokenStream) : Except Error (Tree String) :=
  match s.next with
  | (none, _) => .error .unexpectedEnd
  | (some (.value root), s) =>
    if s.hasNext then
      match Block.ofStream root 1 s with
      | .error e => .error e
      | .ok (t, s) =>
        match s.next with
        | (none, _) => .ok t
        | (some extra, _) => .error (.unexpectedToken extra.text)
    else .ok (leaf root)
  | (some token, _) => .error (.unexpectedToken token.text)

/-- Reads the tree that a text holds. -/
def parse (text : String) : Except Error (Tree String) :=
  ofStream (.ofText text)

end Tree

end TreeText
