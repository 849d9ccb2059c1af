import TreeText.Token.Basic

/-!
# Token streams with one pushback slot

A reader sometimes sees a token too early. It pushes the token back, and the next read gives it
again. There is room for one such token: a second one replaces the first. Reading past the end gives
nothing and changes nothing.

Results:
* `TokenStream.toList_next`: a read takes the first token of the stream, if there is one.
* `TokenStream.toList_pushBack`: the token pushed back stands in front of the unread ones.
* `TokenStream.hasNext_iff`: there is a next token exactly when the stream is not empty.
-/

namespace TreeText

/-- The unread tokens, and the token that was pushed back, if there is one. -/
structure TokenStream where
  pushed : Option Token
  unread : List Token
  deriving DecidableEq, Repr

namespace TokenStream

/-- The stream of the tokens of a text. -/
def ofText (text : String) : TokenStream :=
  ⟨none, tokenize text⟩

/-- The tokens that reads will still give, in order. -/
def toList (s : TokenStream) : List Token :=
  s.pushed.toList ++ s.unread

/-- Reads one token: the one that was pushed back, or else the first unread one. -/
def next (s : TokenStream) : Option Token × TokenStream :=
  match s.pushed, s.unread with
  | some t, unread => (some t, ⟨none, unread⟩)
  | none, t :: unread => (some t, ⟨none, unread⟩)
  | none, [] => (none, s)

/-- Whether a read would give a token. -/
def hasNext (s : TokenStream) : Bool :=
  s.pushed.isSome || !s.unread.isEmpty

/-- Makes `t` the next token. A token that waits in the slot is lost. -/
def pushBack (s : TokenStream) (t : Token) : TokenStream :=
  ⟨some t, s.unread⟩

/-- Reads all that is left. -/
def drain (s : TokenStream) : List Token × TokenStream :=
  (s.toList, ⟨none, []⟩)

@[simp] theorem toList_ofText (text : String) : (ofText text).toList = tokenize text := rfl

theorem toList_next (s : TokenStream) :
    s.next.1 = s.toList.head? ∧ s.next.2.toList = s.toList.tail := by
  obtain ⟨_ | t, _ | ⟨u, unread⟩⟩ := s <;> simp [next, toList]

@[simp] theorem toList_pushBack (s : TokenStream) (t : Token) :
    (s.pushBack t).toList = t :: s.unread := rfl

@[simp] theorem next_pushBack (s : TokenStream) (t : Token) :
    (s.pushBack t).next = (some t, ⟨none, s.unread⟩) := rfl

theorem hasNext_iff (s : TokenStream) : s.hasNext = true ↔ s.toList ≠ [] := by
  obtain ⟨_ | t, _ | ⟨u, unread⟩⟩ := s <;> simp [hasNext, toList]

end TokenStream

end TreeText
