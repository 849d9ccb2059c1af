import TreeText.Proofs.Token.Pushback
import TreeText.Proofs.Tree.Language

/-!
# Blocks by descent

A block can be read by descent: at an opening parenthesis behind a value, the parenthesis is pushed
back and the block of this value is read from its beginning, one level deeper, before the outer block
goes on. The stream is then as long as it was before the parenthesis was read, so a descent does not
end for the reason that every step shortens the stream; it ends because a block takes its parenthesis
and a value at once, and because what an inner block leaves is shorter than what it was given.

Results:
* `Block.Descends.isShorter`: a block that has been read leaves a shorter stream and an empty slot.
* `Block.exists_descends`: every descent ends.
* `Block.Descends.outcome_eq`: a descent comes to what the reader with a stack of blocks gives.
* `Block.ofStream_eq_ok_iff`: the streams from which a block is read, and what is left of them.
* `Block.ofStream_takes_one_block`: a descent ends, and takes one block and nothing else.
-/

namespace TreeText

namespace Block

/-! ## Descents -/

/-- The value that a token is asked to be. -/
def expectValue : Option Token → Except Error String
  | some (.value v) => .ok v
  | some token => .error (.unexpectedToken token.text)
  | none => .error .unexpectedEnd

/-- The first token of a block behind its opening parenthesis, if there is one. -/
def firstToken (s : TokenStream) : Option Token × TokenStream :=
  if s.next.1 = some .opening then s.next.2.next else s.next

/-- Where a descent is: in front of the block of `root`, or behind the first value of the block `b`,
which goes on. -/
inductive Place where
  | before (root : String) (depth : Nat)
  | inside (b : Block) (depth : Nat)

/-- From a place, with what is left of a stream, a descent ends with the given outcome: the tree of
the block and what it leaves of the stream, or an error. Nothing here says that there is an end. -/
inductive Descends : Place → TokenStream → Except Error (Tree String × TokenStream) → Prop
  /-- The block lies below the deepest level. -/
  | tooDeep {root : String} {depth : Nat} {s : TokenStream} (limit : maxDepth < depth) :
      Descends (.before root depth) s (.error (.tooDeep maxDepth))
  /-- The block does not begin with a value. -/
  | refused {root : String} {depth : Nat} {s : TokenStream} {e : Error} (limit : depth ≤ maxDepth)
      (first : expectValue (firstToken s).1 = .error e) :
      Descends (.before root depth) s (.error e)
  /-- The first value of the block waits. -/
  | entered {root : String} {depth : Nat} {s : TokenStream} {v : String}
      {r : Except Error (Tree String × TokenStream)} (limit : depth ≤ maxDepth)
      (first : expectValue (firstToken s).1 = .ok v)
      (onward : Descends (.inside ((start root).addValue v) depth) (firstToken s).2 r) :
      Descends (.before root depth) s r
  /-- The stream ends inside the block. -/
  | unfinished {b : Block} {depth : Nat} {s : TokenStream} (next : s.next.1 = none) :
      Descends (.inside b depth) s (.error .unexpectedEnd)
  /-- The block ends. -/
  | closed {b : Block} {depth : Nat} {s : TokenStream} (next : s.next.1 = some .closing) :
      Descends (.inside b depth) s (.ok (b.toTree, s.next.2))
  /-- The value that waited is a leaf, and the next one waits. -/
  | value {b : Block} {depth : Nat} {s : TokenStream} {v : String}
      {r : Except Error (Tree String × TokenStream)} (next : s.next.1 = some (.value v))
      (onward : Descends (.inside (b.addValue v) depth) s.next.2 r) :
      Descends (.inside b depth) s r
  /-- An opening parenthesis stands behind a tree that is finished. -/
  | stray {b : Block} {depth : Nat} {s : TokenStream} (next : s.next.1 = some .opening)
      (waiting : b.waiting = none) :
      Descends (.inside b depth) s (.error (.unexpectedToken Token.opening.text))
  /-- The value that waited has a block of its own, and this block is not read. -/
  | failed {b : Block} {depth : Nat} {s : TokenStream} {v : String} {e : Error}
      (next : s.next.1 = some .opening) (waiting : b.waiting = some v)
      (inner : Descends (.before v (depth + 1)) (s.next.2.pushBack .opening) (.error e)) :
      Descends (.inside b depth) s (.error e)
  /-- The value that waited has a block of its own, and the block `b` goes on behind it. -/
  | nested {b : Block} {depth : Nat} {s s' : TokenStream} {v : String} {t : Tree String}
      {r : Except Error (Tree String × TokenStream)}
      (next : s.next.1 = some .opening) (waiting : b.waiting = some v)
      (inner : Descends (.before v (depth + 1)) (s.next.2.pushBack .opening) (.ok (t, s')))
      (onward : Descends (.inside (b.addTree t) depth) s' r) :
      Descends (.inside b depth) s r

/-! ## The beginning of a block -/

/-- The tokens of a block behind its opening parenthesis, if there is one. -/
def body : List Token → List Token
  | .opening :: tokens => tokens
  | tokens => tokens

theorem body_eq_iff {tokens rest : List Token} (h : rest.head? ≠ some .opening) :
    body tokens = rest ↔ tokens = .opening :: rest ∨ tokens = rest := by
  match tokens with
  | [] => simp [body]
  | .value v :: tokens => simp [body]
  | .closing :: tokens => simp [body]
  | .opening :: tokens =>
    have hne : .opening :: tokens ≠ rest := by
      rintro rfl
      exact h rfl
    simp [body, hne]

theorem length_body_le (tokens : List Token) : (body tokens).length ≤ tokens.length := by
  unfold body
  split
  · exact Nat.le_succ _
  · exact Nat.le_refl _

theorem firstToken_eq (s : TokenStream) :
    (firstToken s).1 = (body s.toList).head? ∧ (firstToken s).2 = ⟨none, (body s.toList).tail⟩ := by
  have hnext (s : TokenStream) : s.next.2 = ⟨none, s.toList.tail⟩ := by
    rw [TokenStream.eq_of_pushed_eq_none (TokenStream.pushed_next s), (TokenStream.toList_next s).2]
  unfold firstToken
  split
  · rename_i h
    rw [(TokenStream.toList_next s.next.2).1, hnext s.next.2, TokenStream.toList_eq_cons h]
    exact ⟨rfl, rfl⟩
  · rename_i h
    have hbody : body s.toList = s.toList := by
      refine (body_eq_iff ?_).mpr (.inr rfl)
      rwa [← (TokenStream.toList_next s).1]
    rw [hbody, (TokenStream.toList_next s).1, hnext s]
    exact ⟨rfl, rfl⟩

theorem eq_cons_of_expectValue {tokens : List Token} {v : String}
    (h : expectValue tokens.head? = .ok v) : tokens = .value v :: tokens.tail := by
  match tokens with
  | [] => nomatch h
  | .opening :: tokens => nomatch h
  | .closing :: tokens => nomatch h
  | .value w :: tokens => cases h; rfl

/-- A block that does not begin with a value is refused. -/
theorem read_start_of_expectValue {tokens : List Token} {e : Error}
    (h : expectValue tokens.head? = .error e) (depth : Nat) (root : String) (outer : List Block) :
    read depth (start root) outer tokens = .error e := by
  match tokens with
  | [] => cases h; rfl
  | .opening :: tokens => cases h; rfl
  | .closing :: tokens => cases h; rfl
  | .value w :: tokens => nomatch h

theorem ofStream_eq (root : String) (depth : Nat) (s : TokenStream) :
    ofStream root depth s =
      if depth ≤ maxDepth then
        (read depth (start root) [] (body s.toList)).map fun r => (r.1, ⟨none, r.2⟩)
      else .error (.tooDeep maxDepth) := by
  unfold ofStream
  split
  · match s.toList with
    | [] => rfl
    | .opening :: tokens => rfl
    | .closing :: tokens => rfl
    | .value v :: tokens => rfl
  · rfl

theorem ofStream_pushBack_opening (root : String) (depth : Nat) (s : TokenStream) :
    ofStream root (depth + 1) (s.pushBack .opening) =
      (if depth < maxDepth then read (depth + 1) (start root) [] s.unread
        else .error (.tooDeep maxDepth)).map fun r => (r.1, ⟨none, r.2⟩) := by
  rw [ofStream_eq]
  by_cases hlt : depth < maxDepth
  · rw [if_pos (Nat.succ_le_of_lt hlt), if_pos hlt]
    rfl
  · rw [if_neg (by omega), if_neg hlt]
    rfl

/-! ## Every descent ends -/

/-- A descent that has begun a block is left with fewer tokens than it was given. -/
theorem length_firstToken_lt {s : TokenStream} {v : String}
    (h : expectValue (firstToken s).1 = .ok v) :
    (firstToken s).2.toList.length < s.toList.length := by
  obtain ⟨hfirst, hrest⟩ := firstToken_eq s
  rw [hfirst] at h
  have hlength := congrArg List.length (eq_cons_of_expectValue h)
  have hle := length_body_le s.toList
  rw [List.length_cons] at hlength
  rw [hrest]
  show (body s.toList).tail.length < s.toList.length
  omega

theorem length_next_lt {s : TokenStream} {t : Token} (h : s.next.1 = some t) :
    s.next.2.toList.length < s.toList.length := by
  rw [TokenStream.toList_eq_cons h]
  exact Nat.lt_succ_self _

/-- A block that has been read leaves a shorter stream, and nothing in the slot. -/
theorem Descends.isShorter {p : Place} {s s' : TokenStream} {t : Tree String}
    (h : Descends p s (.ok (t, s'))) : s'.toList.length < s.toList.length ∧ s'.pushed = none := by
  generalize hr : Except.ok (t, s') = r at h
  induction h generalizing t s' with
  | tooDeep | refused | unfinished | stray | failed => nomatch hr
  | closed next =>
    cases hr
    exact ⟨length_next_lt next, TokenStream.pushed_next _⟩
  | entered _ first _ ih =>
    obtain ⟨hlt, hpushed⟩ := ih hr
    exact ⟨Nat.lt_trans hlt (length_firstToken_lt first), hpushed⟩
  | value next _ ih =>
    obtain ⟨hlt, hpushed⟩ := ih hr
    exact ⟨Nat.lt_trans hlt (length_next_lt next), hpushed⟩
  | nested next _ _ _ ihInner ih =>
    -- the inner block is given as many tokens as there were before its parenthesis was read
    obtain ⟨hinner, -⟩ := ihInner rfl
    obtain ⟨hlt, hpushed⟩ := ih hr
    rw [TokenStream.toList_pushBack_next next] at hinner
    exact ⟨Nat.lt_trans hlt hinner, hpushed⟩

/-- A block is read to an end if what follows its first value is. -/
theorem exists_descends_before {s : TokenStream}
    (h : ∀ s' : TokenStream, s'.toList.length < s.toList.length →
      ∀ b depth, ∃ r, Descends (.inside b depth) s' r) (root : String) (depth : Nat) :
    ∃ r, Descends (.before root depth) s r := by
  by_cases hlimit : depth ≤ maxDepth
  · cases hfirst : expectValue (firstToken s).1 with
    | error e => exact ⟨_, .refused hlimit hfirst⟩
    | ok v =>
      obtain ⟨r, hr⟩ := h _ (length_firstToken_lt hfirst) ((start root).addValue v) depth
      exact ⟨r, .entered hlimit hfirst hr⟩
  · exact ⟨_, .tooDeep (Nat.lt_of_not_le hlimit)⟩

theorem exists_descends_inside (s : TokenStream) (b : Block) (depth : Nat) :
    ∃ r, Descends (.inside b depth) s r := by
  -- by induction on the number of tokens: an inner block starts with as many as there are now, but
  -- behind its first value, and behind its end, there are fewer
  induction hn : s.toList.length using Nat.strongRecOn generalizing s b depth with
  | ind n ih =>
    subst hn
    cases hnext : s.next.1 with
    | none => exact ⟨_, .unfinished hnext⟩
    | some token =>
      cases token with
      | closing => exact ⟨_, .closed hnext⟩
      | value v =>
        obtain ⟨r, hr⟩ := ih _ (length_next_lt hnext) s.next.2 (b.addValue v) depth rfl
        exact ⟨r, .value hnext hr⟩
      | opening =>
        cases hwaiting : b.waiting with
        | none => exact ⟨_, .stray hnext hwaiting⟩
        | some v =>
          have hpushed := TokenStream.toList_pushBack_next hnext
          obtain ⟨r, hinner⟩ := exists_descends_before (s := s.next.2.pushBack .opening)
            (fun s' hs' b depth => ih _ (hpushed ▸ hs') s' b depth rfl) v (depth + 1)
          match r, hinner with
          | .error e, hinner => exact ⟨_, .failed hnext hwaiting hinner⟩
          | .ok (t, s'), hinner =>
            have hlt := hinner.isShorter.1
            rw [hpushed] at hlt
            obtain ⟨r, hr⟩ := ih _ hlt s' (b.addTree t) depth rfl
            exact ⟨r, .nested hnext hwaiting hinner hr⟩

theorem exists_descends (p : Place) (s : TokenStream) : ∃ r, Descends p s r := by
  cases p with
  | before root depth =>
    exact exists_descends_before (fun s' _ b depth => exists_descends_inside s' b depth) root depth
  | inside b depth => exact exists_descends_inside s b depth

/-! ## The stack of open blocks -/

/-- The block `parent` goes on behind the end of an inner block at level `depth`. -/
def goOn (depth : Nat) (parent : Block) (outer : List Block) (r : Tree String × List Token) :
    Except Error (Tree String × List Token) :=
  read (depth - 1) (parent.addTree r.1) outer r.2

/-- The outer blocks play no part until an inner block has ended. -/
theorem read_append_outer (depth : Nat) (b : Block) (inner : List Block) (parent : Block)
    (outer : List Block) (tokens : List Token) :
    read (depth + inner.length) b (inner ++ parent :: outer) tokens =
      read (depth + inner.length) b inner tokens >>= goOn depth parent outer := by
  -- the blocks in front of `parent` come and go, so the induction is for all of them
  induction tokens generalizing b inner with
  | nil => rfl
  | cons token tokens ih =>
    cases token with
    | value v => exact ih (b.addValue v) inner
    | opening =>
      unfold read
      cases b.waiting with
      | none => rfl
      | some v =>
        by_cases hlt : depth + inner.length < maxDepth
        · simp only [if_pos hlt]
          exact ih (start v) ({ b with waiting := none } :: inner)
        · simp only [if_neg hlt]
          rfl
    | closing =>
      unfold read
      by_cases hempty : b.settled.isEmpty
      · simp only [if_pos hempty]
        rfl
      · simp only [if_neg hempty]
        cases inner with
        | nil => rfl
        | cons c inner => exact ih (c.addTree b.toTree) inner

/-- At an opening parenthesis behind the value `v`, a block reads the block of `v` and goes on. -/
theorem read_opening {b : Block} {v : String} (h : b.waiting = some v) (depth : Nat)
    (tokens : List Token) :
    read depth b [] (.opening :: tokens) =
      (if depth < maxDepth then read (depth + 1) (start v) [] tokens
        else .error (.tooDeep maxDepth)) >>= goOn (depth + 1) b [] := by
  conv => lhs; rw [read, h]
  by_cases hlt : depth < maxDepth
  · simp only [if_pos hlt]
    exact read_append_outer (depth + 1) (start v) [] { b with waiting := none } [] tokens
  · simp only [if_neg hlt]
    rfl

/-- What the reader with a stack of blocks gives from a place on. -/
def Place.outcome : Place → TokenStream → Except Error (Tree String × TokenStream)
  | before root depth, s => ofStream root depth s
  | inside b depth, s => (read depth b [] s.toList).map fun r => (r.1, ⟨none, r.2⟩)

theorem Place.outcome_inside_opening {b : Block} {v : String} {s : TokenStream}
    (next : s.next.1 = some .opening) (waiting : b.waiting = some v) (depth : Nat) :
    (inside b depth).outcome s =
      (before v (depth + 1)).outcome (s.next.2.pushBack .opening) >>= fun r =>
        (inside (b.addTree r.1) depth).outcome r.2 := by
  have hunread : s.next.2.unread = s.next.2.toList := by
    rw [TokenStream.toList, TokenStream.pushed_next]
    rfl
  simp only [outcome]
  rw [ofStream_pushBack_opening, TokenStream.toList_eq_cons next, read_opening waiting, hunread]
  cases (if depth < maxDepth then read (depth + 1) (start v) [] s.next.2.toList
    else .error (.tooDeep maxDepth)) <;> rfl

/-- Whether a value has been read in the block that goes on, so that it may end. -/
def Place.HasBegun : Place → Prop
  | before _ _ => True
  | inside b _ => b.settled ≠ []

theorem Descends.outcome_eq {p : Place} {s : TokenStream}
    {r : Except Error (Tree String × TokenStream)} (h : Descends p s r) (hp : p.HasBegun) :
    p.outcome s = r := by
  induction h with
  | tooDeep limit => exact (ofStream_eq ..).trans (if_neg (Nat.not_le_of_lt limit))
  | @refused root depth s e limit first =>
    rw [(firstToken_eq s).1] at first
    rw [Place.outcome, ofStream_eq, if_pos limit, read_start_of_expectValue first]
    rfl
  | @entered root depth s v r limit first onward ih =>
    obtain ⟨hfirst, hrest⟩ := firstToken_eq s
    rw [hfirst] at first
    rw [Place.outcome, ofStream_eq, if_pos limit, eq_cons_of_expectValue first,
      ← ih (List.cons_ne_nil _ _), hrest]
    rfl
  | unfinished next =>
    rw [Place.outcome, TokenStream.toList_eq_nil next]
    rfl
  | @closed b depth s next =>
    have hne : b.settled ≠ [] := hp
    have hrest := TokenStream.eq_of_pushed_eq_none (TokenStream.pushed_next s)
    rw [Place.outcome, TokenStream.toList_eq_cons next, read, if_neg (by simpa using hne)]
    exact congrArg (fun s' => Except.ok (b.toTree, s')) hrest.symm
  | value next onward ih =>
    rw [← ih (List.cons_ne_nil _ _), Place.outcome, TokenStream.toList_eq_cons next]
    rfl
  | stray next waiting =>
    rw [Place.outcome, TokenStream.toList_eq_cons next, read, waiting]
    rfl
  | failed next waiting inner ih =>
    rw [Place.outcome_inside_opening next waiting, ih trivial]
    rfl
  | nested next waiting inner onward ihInner ih =>
    rw [Place.outcome_inside_opening next waiting, ihInner trivial]
    exact ih (List.cons_ne_nil _ _)

/-! ## Blocks -/

/-- The reader with a stack of blocks does what a descent does. -/
theorem descends_iff {root : String} {depth : Nat} {s : TokenStream}
    {r : Except Error (Tree String × TokenStream)} :
    Descends (.before root depth) s r ↔ ofStream root depth s = r := by
  constructor
  · intro h
    exact h.outcome_eq trivial
  · rintro rfl
    obtain ⟨r, hr⟩ := exists_descends (.before root depth) s
    have houtcome : ofStream root depth s = r := hr.outcome_eq trivial
    rwa [houtcome]

theorem ofStream_eq_ok_iff_read {root : String} {depth : Nat} {s s' : TokenStream}
    {t : Tree String} :
    ofStream root depth s = .ok (t, s') ↔
      depth ≤ maxDepth ∧ s'.pushed = none ∧
        (⟨depth, .start root, []⟩ : Reading).read (body s.toList) = .ok (t, s'.toList) := by
  rw [ofStream_eq, Reading.read]
  by_cases hlimit : depth ≤ maxDepth
  · rw [if_pos hlimit]
    cases read depth (start root) [] (body s.toList) with
    | error e => simp [Except.map]
    | ok r =>
      obtain ⟨u, rest⟩ := r
      obtain ⟨_ | w, unread⟩ := s' <;> simp [Except.map, TokenStream.toList, hlimit]
  · simp [hlimit]

/-- A block is read exactly from its tokens with anything behind them, if it keeps to the limit. -/
theorem ofStream_eq_ok_iff {root : String} {depth : Nat} {s s' : TokenStream} {t : Tree String} :
    ofStream root depth s = .ok (t, s') ↔
      ∃ cs, cs ≠ [] ∧ t = .node root cs ∧ s'.pushed = none ∧ depth + t.height ≤ maxDepth + 1 ∧
        (s.toList = .opening :: (cs.flatMap Tree.tokens ++ .closing :: s'.toList) ∨
          s.toList = cs.flatMap Tree.tokens ++ .closing :: s'.toList) := by
  rw [ofStream_eq_ok_iff_read]
  constructor
  · rintro ⟨hlimit, hpushed, hread⟩
    have hheight := Reading.height_of_read (Reading.fits_start hlimit root) hread
    obtain ⟨cs, hcs, ht, hbody⟩ := Reading.exists_children_of_read hread
    exact ⟨cs, hcs, ht, hpushed, hheight,
      (body_eq_iff (Tree.head?_flatMap_tokens cs s'.toList)).mp hbody⟩
  · rintro ⟨cs, hcs, rfl, hpushed, hheight, htokens⟩
    have hpos := Tree.height_pos root hcs
    have hlimit : depth ≤ maxDepth := by omega
    refine ⟨hlimit, hpushed, ?_⟩
    rw [(body_eq_iff (Tree.head?_flatMap_tokens cs s'.toList)).mpr htokens,
      Reading.read_children hlimit root hcs, if_pos hheight]

/-- **A block and nothing else.** From every stream and at every level, reading a block by descent
ends, in one way. If it gives a tree, then the tree has the value of the block at its root and one
child at least; the stream held the tokens of the children between parentheses, or without the opening
one, in which case it began with a value; the tokens behind are all left, and none waits in the slot;
and the tree does not reach below the deepest level. Every block that keeps to the limit is read in
this way, whatever stands behind it. -/
theorem ofStream_takes_one_block (root : String) (depth : Nat) (s : TokenStream) :
    (∃ r, Descends (.before root depth) s r) ∧
    (∀ r, Descends (.before root depth) s r ↔ ofStream root depth s = r) ∧
    (∀ t s', ofStream root depth s = .ok (t, s') →
      t.value = root ∧ t.children ≠ [] ∧ s'.pushed = none ∧ depth + t.height ≤ maxDepth + 1 ∧
        (s.toList = .opening :: (t.children.flatMap Tree.tokens ++ .closing :: s'.toList) ∨
          (∃ v, (t.children.flatMap Tree.tokens).head? = some (.value v)) ∧
            s.toList = t.children.flatMap Tree.tokens ++ .closing :: s'.toList)) ∧
    ∀ cs rest, cs ≠ [] → depth + (Tree.node root cs).height ≤ maxDepth + 1 →
      (s.toList = .opening :: (cs.flatMap Tree.tokens ++ .closing :: rest) ∨
        s.toList = cs.flatMap Tree.tokens ++ .closing :: rest) →
      ofStream root depth s = .ok (.node root cs, ⟨none, rest⟩) := by
  refine ⟨exists_descends _ s, fun r => descends_iff, fun t s' h => ?_,
    fun cs rest hcs hheight htokens => ?_⟩
  · obtain ⟨cs, hcs, rfl, hpushed, hheight, htokens⟩ := ofStream_eq_ok_iff.mp h
    refine ⟨rfl, hcs, hpushed, hheight, htokens.imp_right fun htokens => ⟨?_, htokens⟩⟩
    obtain ⟨c, ds, rfl⟩ := List.exists_cons_of_ne_nil hcs
    exact ⟨c.value, by simp [List.head?_append, Tree.head?_tokens]⟩
  · exact ofStream_eq_ok_iff.mpr ⟨cs, hcs, rfl, rfl, hheight, htokens⟩

/-- A block whose parenthesis waits in the slot, with a value behind it. -/
def waitingBlock : TokenStream :=
  ⟨some .opening,
    [.value "b", .value "c", .opening, .value "d", .closing, .closing, .value "e"]⟩

/-- The block is read as deep as it may lie, and is refused one level deeper. The parenthesis of the
outermost level may be missing. -/
theorem ofStream_takes_one_block_deepest :
    (∃ r, Descends (.before "a" 1000) waitingBlock r) ∧
      Descends (.before "a" 1000) waitingBlock (.error (.tooDeep maxDepth)) ∧
      999 + (Tree.node "a" [.leaf "b", .node "c" [.leaf "d"]]).height = maxDepth + 1 ∧
      ofStream "a" 999 waitingBlock =
        .ok (.node "a" [.leaf "b", .node "c" [.leaf "d"]], ⟨none, [.value "e"]⟩) ∧
      ofStream "a" 1000 ⟨some (.value "b"), [.closing, .opening]⟩ =
        .ok (.node "a" [.leaf "b"], ⟨none, [.opening]⟩) ∧
      1000 + (Tree.node "a" [.leaf "b"]).height ≤ maxDepth + 1 := by
  obtain ⟨-, -, -, hread⟩ := ofStream_takes_one_block "a" 999 waitingBlock
  obtain ⟨hends, hdescends, -, -⟩ := ofStream_takes_one_block "a" 1000 waitingBlock
  obtain ⟨-, -, htakes, -⟩ :=
    ofStream_takes_one_block "a" 1000 ⟨some (.value "b"), [.closing, .opening]⟩
  have hbare : ofStream "a" 1000 ⟨some (.value "b"), [.closing, .opening]⟩ =
      .ok (.node "a" [.leaf "b"], ⟨none, [.opening]⟩) := rfl
  obtain ⟨-, -, -, hheight, -⟩ := htakes _ _ hbare
  exact ⟨hends, (hdescends _).mpr rfl, by decide,
    hread [.leaf "b", .node "c" [.leaf "d"]] [.value "e"] (by decide) (by decide) (.inl rfl),
    hbare, hheight⟩

end Block

end TreeText
