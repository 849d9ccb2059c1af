import TreeText.Token.Stream

/-!
# Streams under reads and push backs

A stream is used by reads and push backs in any order, also before the first read and behind the end.
Whatever tokens are pushed back, the input is neither lost nor repeated: what the slot gives and what
the input gives are told apart by the calls alone, as a read gives the slot exactly if it comes right
behind a push back. All other reads together give the tokens of the text, in order and each once.

Results:
* `TokenStream.next_unread`: what one read takes from the input.
* `TokenStream.toList_pushBack_next`: a push back undoes a read.
* `TokenStream.delivered_append_unread`: what calls have taken, and what is left.
* `TokenStream.pushed_after`: the slot is empty unless the last call was a push back.
* `TokenStream.reads_of_calls`: what a read gives after any calls.
-/

namespace TreeText

namespace TokenStream

/-! ## Calls -/

/-- The ways to use a stream. -/
inductive Call where
  | next
  | pushBack (t : Token)
  deriving DecidableEq, Repr

/-- What a call has done: a read has given a token or nothing, a push back has taken a token. -/
inductive Event where
  | read (answer : Option Token)
  | pushBack (t : Token)
  deriving DecidableEq, Repr

/-- A call with what it does, and the stream behind it. -/
def call (s : TokenStream) : Call → Event × TokenStream
  | .next => (.read s.next.1, s.next.2)
  | .pushBack t => (.pushBack t, s.pushBack t)

/-- The stream after calls. -/
def after (s : TokenStream) (calls : List Call) : TokenStream :=
  calls.foldl (fun s c => (s.call c).2) s

/-- What calls do, one by one. -/
def events (s : TokenStream) : List Call → List Event
  | [] => []
  | c :: calls => (s.call c).1 :: (s.call c).2.events calls

/-- The tokens that came from the input: what reads have given, but not those right behind a push
back. Whether a push back has just been is told by `replay`. -/
def delivered (replay : Bool) : List Event → List Token
  | [] => []
  | .pushBack _ :: es => delivered true es
  | .read answer :: es => (if replay then [] else answer.toList) ++ delivered false es

/-! ## One call -/

theorem pushed_next (s : TokenStream) : s.next.2.pushed = none := by
  obtain ⟨_ | t, _ | ⟨u, unread⟩⟩ := s <;> rfl

/-- A read takes the first unread token, unless a token waits in the slot. -/
theorem next_unread (s : TokenStream) :
    (if s.pushed.isSome then [] else s.next.1.toList) ++ s.next.2.unread = s.unread := by
  obtain ⟨_ | t, _ | ⟨u, unread⟩⟩ := s <;> rfl

theorem next_of_pushed_eq_none {s : TokenStream} (h : s.pushed = none) :
    s.next.1 = s.unread.head? := by
  obtain ⟨_ | t, _ | ⟨u, unread⟩⟩ := s <;> first | rfl | nomatch h

/-- A token that is read and pushed back is read again. -/
theorem toList_pushBack_next {s : TokenStream} {t : Token} (h : s.next.1 = some t) :
    (s.next.2.pushBack t).toList = s.toList := by
  obtain ⟨_ | u, _ | ⟨v, unread⟩⟩ := s <;> cases h <;> rfl

theorem toList_eq_cons {s : TokenStream} {t : Token} (h : s.next.1 = some t) :
    s.toList = t :: s.next.2.toList := by
  rw [← toList_pushBack_next h, toList_pushBack, toList, pushed_next]
  rfl

theorem toList_eq_nil {s : TokenStream} (h : s.next.1 = none) : s.toList = [] := by
  rw [← List.head?_eq_none_iff, ← (toList_next s).1, h]

theorem eq_of_pushed_eq_none {s : TokenStream} (h : s.pushed = none) : s = ⟨none, s.toList⟩ := by
  obtain ⟨_ | t, unread⟩ := s
  · rfl
  · nomatch h

/-! ## Calls in a row -/

theorem after_append (s : TokenStream) (calls more : List Call) :
    s.after (calls ++ more) = (s.after calls).after more :=
  List.foldl_append

theorem pushed_after {s : TokenStream} (hs : s.pushed = none) {calls : List Call}
    (h : ∀ before t, calls ≠ before ++ [.pushBack t]) : (s.after calls).pushed = none := by
  rcases List.eq_nil_or_concat calls with rfl | ⟨before, _ | t, rfl⟩
  · exact hs
  · rw [List.concat_eq_append, after_append]
    exact pushed_next (s.after before)
  · exact absurd List.concat_eq_append (h before t)

/-- Calls take the unread tokens in order, and leave those that they have not delivered. -/
theorem delivered_append_unread (s : TokenStream) (calls : List Call) :
    delivered s.pushed.isSome (s.events calls) ++ (s.after calls).unread = s.unread := by
  induction calls generalizing s with
  | nil => rfl
  | cons c calls ih =>
    cases c with
    | next =>
      have hrest : delivered false (s.next.2.events calls) ++ (s.next.2.after calls).unread
          = s.next.2.unread := by
        simpa [pushed_next] using ih s.next.2
      show (_ ++ delivered false (s.next.2.events calls)) ++ (s.next.2.after calls).unread = _
      rw [List.append_assoc, hrest, next_unread]
    | pushBack t => exact ih (s.pushBack t)

/-! ## From the start -/

/-- **No push back loses or repeats input.** Take the stream of a text after any calls. If the last
call was a push back, a read gives the token that was pushed back. If it was not, a read gives the
first token of the text that has not been delivered, or nothing if there is none. The tokens that were
delivered are the first ones of the text, in order. Of push backs in a row only the last one counts.
There is a next token if and only if a read gives one. -/
theorem reads_of_calls (text : String) (calls : List Call) :
    (∀ before t, calls = before ++ [.pushBack t] → ((ofText text).after calls).next.1 = some t) ∧
    ((∀ before t, calls ≠ before ++ [.pushBack t]) →
      ((ofText text).after calls).next.1
        = (tokenize text)[(delivered false ((ofText text).events calls)).length]?) ∧
    delivered false ((ofText text).events calls) <+: tokenize text ∧
    (∀ t u, (ofText text).after (calls ++ [.pushBack t, .pushBack u])
      = (ofText text).after (calls ++ [.pushBack u])) ∧
    (((ofText text).after calls).hasNext = true ↔
      ∃ t, ((ofText text).after calls).next.1 = some t) := by
  have htext : delivered false ((ofText text).events calls) ++ ((ofText text).after calls).unread
      = tokenize text :=
    delivered_append_unread (ofText text) calls
  refine ⟨?_, fun h => ?_, ⟨_, htext⟩, fun t u => ?_, ?_⟩
  · rintro before t rfl
    rw [after_append]
    rfl
  · rw [next_of_pushed_eq_none (pushed_after rfl h), ← htext,
      List.getElem?_append_right (Nat.le_refl _), Nat.sub_self, List.head?_eq_getElem?]
  · rw [after_append, after_append]
    rfl
  · rw [hasNext_iff, (toList_next _).1, ← List.isSome_head?, Option.isSome_iff_exists]

/-- Push backs before the first read, in a row, and behind the end. -/
def mixedCalls : List Call :=
  [.pushBack .closing, .next, .next, .pushBack .opening, .pushBack (.value "c d"), .next, .next, .next,
    .pushBack (.value "")]

/-- What was pushed back behind the end is read once, and then there is nothing again. -/
theorem reads_of_calls_mixed :
    delivered false ((ofText "a(").events mixedCalls) = [.value "a", .opening] ∧
      ((ofText "a(").after mixedCalls).next.1 = some (.value "") ∧
      ((ofText "a(").after (mixedCalls ++ [Call.next])).next.1 = none := by
  refine ⟨by decide, (reads_of_calls "a(" mixedCalls).1 mixedCalls.dropLast _ rfl, ?_⟩
  have hlast : ∀ before t, mixedCalls ++ [Call.next] ≠ before ++ [.pushBack t] := by
    intro before t h
    simpa using congrArg List.getLast? h
  rw [(reads_of_calls "a(" (mixedCalls ++ [Call.next])).2.1 hlast]
  decide

end TokenStream

end TreeText
