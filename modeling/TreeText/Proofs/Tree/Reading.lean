import TreeText.Tree.Canonical
import TreeText.Tree.Parse

/-!
# Reading blocks token by token

While blocks are open, every token either leads to a new state of the reader or stops it. What holds
of whole texts follows from what one token changes: the tokens of the children read so far are the
tokens read so far, and no tree reaches below the deepest level.

Results:
* `Reading.step?_cases`: all that a token can do to the state.
* `Reading.read_cons`: a reader goes on with the new state, or it stops.
* `Reading.written_run?`: the state of a reader accounts for all tokens read.
* `Reading.tokens_of_read`, `Reading.height_of_read`: a reader that ends gives a tree of the tokens
  read, and the tree keeps to the limit.
* `Reading.exists_children_of_read`: a block that has been read is made of its children.
* `Block.readsChild`: the tokens of a tree are read as the next child if it keeps to the limit, and
  are refused as too deep otherwise.
-/

namespace TreeText

/-- A node that lies at level `depth` reaches one level less deep than its children. -/
theorem Tree.add_height_le_iff {depth limit : Nat} (h : depth ≤ limit) (v : String)
    (cs : List (Tree String)) :
    depth + (node v cs).height ≤ limit + 1 ↔ ∀ c ∈ cs, depth + c.height ≤ limit := by
  have hle : (node v cs).height ≤ limit + 1 - depth ↔ ∀ c ∈ cs, c.height + 1 ≤ limit + 1 - depth :=
    height_le_iff
  constructor
  · intro hnode c hc
    have := hle.mp (by omega) c hc
    omega
  · intro hcs
    have := hle.mpr fun c hc => by have := hcs c hc; omega
    omega

/-- A node with children is not of height zero. -/
theorem Tree.height_pos (v : String) {cs : List (Tree String)} (hcs : cs ≠ []) :
    0 < (node v cs).height := by
  obtain ⟨c, hc⟩ := List.exists_mem_of_ne_nil cs hcs
  exact Nat.lt_of_le_of_lt (Nat.zero_le _) (height_lt_of_mem hc)

namespace Block

@[simp] theorem settled_start (root : String) : (start root).settled = [] := rfl

@[simp] theorem settled_addValue (b : Block) (v : String) :
    (b.addValue v).settled = .leaf v :: b.settled := rfl

@[simp] theorem settled_addTree (b : Block) (t : Tree String) :
    (b.addTree t).settled = t :: b.finished := rfl

theorem settled_of_waiting {b : Block} {v : String} (h : b.waiting = some v) :
    b.settled = .leaf v :: b.finished := by
  rw [settled, h]

end Block

/-- The state of a reader inside a block: the level of the innermost block, this block, and the
blocks around it, the nearest one first. -/
structure Reading where
  depth : Nat
  block : Block
  outer : List Block

namespace Reading

/-- Reads on until the outermost block ends. -/
def read (s : Reading) (tokens : List Token) : Except Error (Tree String × List Token) :=
  Block.read s.depth s.block s.outer tokens

/-- The state after one more token, unless this token ends the outermost block or is refused. -/
def step? (s : Reading) : Token → Option Reading
  | .value v => some { s with block := s.block.addValue v }
  | .opening =>
    match s.block.waiting with
    | none => none
    | some v =>
      if s.depth < maxDepth then
        some ⟨s.depth + 1, .start v, { s.block with waiting := none } :: s.outer⟩
      else none
  | .closing =>
    if s.block.settled.isEmpty then none
    else
      match s.outer with
      | [] => none
      | parent :: outer => some ⟨s.depth - 1, parent.addTree s.block.toTree, outer⟩

/-- All that a token can do to the state. -/
theorem step?_cases {s s' : Reading} {token : Token} (h : s.step? token = some s') :
    (∃ v, token = .value v ∧ s' = { s with block := s.block.addValue v }) ∨
      (∃ v, token = .opening ∧ s.block.waiting = some v ∧ s.depth < maxDepth ∧
        s' = ⟨s.depth + 1, .start v, { s.block with waiting := none } :: s.outer⟩) ∨
      ∃ parent outer, token = .closing ∧ s.block.settled ≠ [] ∧ s.outer = parent :: outer ∧
        s' = ⟨s.depth - 1, parent.addTree s.block.toTree, outer⟩ := by
  obtain ⟨depth, b, outer⟩ := s
  cases token with
  | value v => exact .inl ⟨v, rfl, (Option.some.inj h).symm⟩
  | opening =>
    refine .inr (.inl ?_)
    cases hw : b.waiting with
    | none => simp [step?, hw] at h
    | some v =>
      by_cases hd : depth < maxDepth
      · simp only [step?, hw, hd, if_true, Option.some.injEq] at h
        exact ⟨v, rfl, rfl, hd, h.symm⟩
      · simp [step?, hw, hd] at h
  | closing =>
    refine .inr (.inr ?_)
    by_cases hs : b.settled = []
    · simp [step?, hs] at h
    · cases outer with
      | nil => simp [step?] at h
      | cons parent outer =>
        have hempty : b.settled.isEmpty = false := by simpa using hs
        simp only [step?, hempty, Bool.false_eq_true, if_false, Option.some.injEq] at h
        exact ⟨parent, outer, rfl, hs, rfl, h.symm⟩

/-- Why a token is refused: behind a value an opening parenthesis can only lie too deep. -/
def refusal (s : Reading) (token : Token) : Error :=
  if token = .opening ∧ s.block.waiting.isSome then .tooDeep maxDepth
  else .unexpectedToken token.text

/-- What a token leads to that leads to no new state; `rest` are the tokens behind it. -/
def stop (s : Reading) (token : Token) (rest : List Token) :
    Except Error (Tree String × List Token) :=
  if token = .closing ∧ s.block.settled ≠ [] then .ok (s.block.toTree, rest)
  else .error (s.refusal token)

theorem read_nil (s : Reading) : s.read [] = .error .unexpectedEnd := rfl

theorem read_cons (s : Reading) (token : Token) (rest : List Token) :
    s.read (token :: rest) = match s.step? token with
      | some s' => s'.read rest
      | none => s.stop token rest := by
  obtain ⟨depth, ⟨root, finished, waiting⟩, outer⟩ := s
  cases token with
  | value v => rfl
  | opening =>
    cases waiting with
    | none => simp [read, Block.read, step?, stop, refusal]
    | some v =>
      by_cases hd : depth < maxDepth <;> simp [read, Block.read, step?, stop, refusal, hd]
  | closing =>
    by_cases hs : (Block.mk root finished waiting).settled = []
    · simp [read, Block.read, step?, stop, refusal, hs]
    · cases outer <;> simp [read, Block.read, step?, stop, hs]

/-- Only the end of the outermost block is no refusal. -/
theorem stop_eq_ok_iff {s : Reading} {token : Token} {rest rest' : List Token} {t : Tree String} :
    s.stop token rest = .ok (t, rest')
      ↔ token = .closing ∧ s.block.settled ≠ [] ∧ s.block.toTree = t ∧ rest = rest' := by
  unfold stop
  split
  · rename_i h
    simp [h.1, h.2]
  · rename_i h
    constructor
    · intro h'; nomatch h'
    · rintro ⟨h₁, h₂, -⟩
      exact absurd ⟨h₁, h₂⟩ h

/-! ## Runs -/

/-- The state after a list of tokens, if all of them lead to new states. -/
def run? (s : Reading) : List Token → Option Reading
  | [] => some s
  | token :: tokens => (s.step? token).bind fun s' => s'.run? tokens

theorem read_append {s s' : Reading} {tokens : List Token} (h : s.run? tokens = some s')
    (rest : List Token) : s.read (tokens ++ rest) = s'.read rest := by
  induction tokens generalizing s with
  | nil => cases h; rfl
  | cons token tokens ih =>
    obtain ⟨s₁, hs, h⟩ := Option.bind_eq_some_iff.mp h
    rw [List.cons_append, read_cons, hs]
    exact ih h

/-- A reader runs to the end of the tokens, or it is stopped by one of them. -/
theorem run?_cases (s : Reading) (tokens : List Token) :
    (∃ s', s.run? tokens = some s') ∨
      ∃ before token rest s', tokens = before ++ token :: rest ∧ s.run? before = some s' ∧
        s'.step? token = none := by
  induction tokens generalizing s with
  | nil => exact .inl ⟨s, rfl⟩
  | cons token tokens ih =>
    cases hs : s.step? token with
    | none => exact .inr ⟨[], token, tokens, s, rfl, rfl, hs⟩
    | some s₁ =>
      rcases ih s₁ with ⟨s', h⟩ | ⟨before, stopper, rest, s', rfl, h, hstop⟩
      · exact .inl ⟨s', by rw [run?, hs]; exact h⟩
      · exact .inr ⟨token :: before, stopper, rest, s', rfl, by rw [run?, hs]; exact h, hstop⟩

/-- What every step keeps holds after every run. -/
theorem run?_invariant {P : Reading → Prop}
    (hstep : ∀ {s s' token}, P s → s.step? token = some s' → P s') {s s' : Reading}
    {tokens : List Token} (hs : P s) (h : s.run? tokens = some s') : P s' := by
  induction tokens generalizing s with
  | nil => cases h; exact hs
  | cons token tokens ih =>
    obtain ⟨s₁, hs₁, h⟩ := Option.bind_eq_some_iff.mp h
    exact ih (hstep hs hs₁) h

/-- A reader that ends was stopped by the parenthesis that closes the outermost block. -/
theorem exists_run?_of_read {s : Reading} {tokens rest : List Token} {t : Tree String}
    (h : s.read tokens = .ok (t, rest)) :
    ∃ before s', tokens = before ++ .closing :: rest ∧ s.run? before = some s' ∧
      s'.step? .closing = none ∧ s'.block.settled ≠ [] ∧ s'.block.toTree = t := by
  rcases s.run?_cases tokens with ⟨s', hrun⟩ | ⟨before, token, rest', s', rfl, hrun, hstop⟩
  · rw [← List.append_nil tokens, read_append hrun, read_nil] at h
    nomatch h
  · rw [read_append hrun, read_cons, hstop] at h
    obtain ⟨rfl, hne, ht, rfl⟩ := stop_eq_ok_iff.mp h
    exact ⟨before, s', rfl, hrun, hstop, hne, ht⟩

/-- The outermost block has no block around it. -/
theorem outer_eq_nil {s : Reading} (h : s.step? .closing = none) (hne : s.block.settled ≠ []) :
    s.outer = [] := by
  obtain ⟨depth, b, outer⟩ := s
  cases outer with
  | nil => rfl
  | cons parent outer =>
    have hb : b.settled.isEmpty = false := by simpa using hne
    simp [step?, hb] at h

/-! ## What has been read -/

/-- The tokens of an open block: its value, its opening parenthesis, and its children, of which the
last one comes first in the list. -/
def writtenBlock (root : String) (children : List (Tree String)) : List Token :=
  .value root :: .opening :: children.reverse.flatMap Tree.tokens

theorem writtenBlock_cons (root : String) (t : Tree String) (children : List (Tree String)) :
    writtenBlock root (t :: children) = writtenBlock root children ++ t.tokens := by
  simp [writtenBlock]

/-- A block that ends has the tokens of its tree. -/
theorem tokens_toTree {b : Block} (h : b.settled ≠ []) :
    b.toTree.tokens = writtenBlock b.root b.settled ++ [.closing] := by
  rw [Block.toTree, Tree.tokens_node _ (by simpa using h)]
  rfl

/-- All tokens that the state of a reader stands for, from the value of the outermost block on. -/
def written (s : Reading) : List Token :=
  s.outer.reverse.flatMap (fun b => writtenBlock b.root b.finished) ++
    writtenBlock s.block.root s.block.settled

theorem written_step? {s s' : Reading} {token : Token} (h : s.step? token = some s') :
    s'.written = s.written ++ [token] := by
  rcases step?_cases h with
    ⟨v, rfl, rfl⟩ | ⟨v, rfl, hwaiting, -, rfl⟩ | ⟨parent, outer, rfl, hne, houter, rfl⟩
  · simp only [written, Block.settled_addValue, writtenBlock_cons, Tree.tokens_leaf,
      List.append_assoc]
    rfl
  · -- the value that waits is the value of the new block
    simp only [written, Block.settled_of_waiting hwaiting, Block.settled_start, writtenBlock_cons,
      Tree.tokens_leaf, List.reverse_cons, List.flatMap_append]
    simp [writtenBlock, Block.start]
  · simp only [written, houter, Block.settled_addTree, writtenBlock_cons, tokens_toTree hne,
      List.reverse_cons, List.flatMap_append]
    simp [Block.addTree]

theorem written_run? {s s' : Reading} {tokens : List Token} (h : s.run? tokens = some s') :
    s'.written = s.written ++ tokens := by
  induction tokens generalizing s with
  | nil => cases h; simp
  | cons token tokens ih =>
    obtain ⟨s₁, hs, h⟩ := Option.bind_eq_some_iff.mp h
    rw [ih h, written_step? hs, List.append_assoc]
    rfl

theorem tokens_of_read {s : Reading} {tokens rest : List Token} {t : Tree String}
    (h : s.read tokens = .ok (t, rest)) : s.written ++ tokens = t.tokens ++ rest := by
  obtain ⟨before, s', rfl, hrun, hstop, hne, rfl⟩ := exists_run?_of_read h
  have hw := written_run? hrun
  rw [written, outer_eq_nil hstop hne] at hw
  rw [tokens_toTree hne, ← List.append_assoc, ← hw]
  simp

/-- A block that has been read consists of the tokens of its children, of which there is one at
least, and of a closing parenthesis. -/
theorem exists_children_of_read {root : String} {depth : Nat} {tokens rest : List Token}
    {t : Tree String} (h : (⟨depth, .start root, []⟩ : Reading).read tokens = .ok (t, rest)) :
    ∃ cs, cs ≠ [] ∧ t = .node root cs ∧ tokens = cs.flatMap Tree.tokens ++ .closing :: rest := by
  obtain ⟨before, s', -, -, -, hne, rfl⟩ := exists_run?_of_read h
  have htokens := tokens_of_read h
  rw [tokens_toTree hne] at htokens
  simp only [written, writtenBlock, Block.settled_start, List.reverse_nil, List.flatMap_nil,
    List.nil_append, List.cons_append, List.append_assoc, List.cons.injEq, Token.value.injEq,
    true_and] at htokens
  obtain ⟨hroot, htokens⟩ := htokens
  refine ⟨s'.block.settled.reverse, by simpa using hne, ?_, htokens⟩
  rw [Block.toTree, ← hroot]
  rfl

/-! ## The limit of levels -/

/-- No finished child of the blocks around the innermost one reaches below the deepest level, where
`base` is the level of the outermost block. -/
def OuterFit (base : Nat) : List Block → Prop
  | [] => True
  | b :: outer =>
    (∀ c ∈ b.finished, base + outer.length + c.height ≤ maxDepth) ∧ OuterFit base outer

/-- No block that has been read lies below the deepest level, where `base` is the level of the
outermost block. -/
structure Fits (base : Nat) (s : Reading) : Prop where
  depth_eq : s.depth = base + s.outer.length
  depth_le : s.depth ≤ maxDepth
  settled_le : ∀ c ∈ s.block.settled, s.depth + c.height ≤ maxDepth
  outer_fit : OuterFit base s.outer

theorem fits_start {base : Nat} (h : base ≤ maxDepth) (root : String) :
    Fits base ⟨base, .start root, []⟩ :=
  ⟨rfl, h, fun _ hc => (nomatch hc), trivial⟩

/-- The tree of a block reaches one level less deep, counted from the block around it. -/
theorem Fits.toTree_height_le {base : Nat} {s : Reading} (hs : s.Fits base) :
    s.depth + s.block.toTree.height ≤ maxDepth + 1 := by
  rw [Block.toTree, Tree.add_height_le_iff hs.depth_le]
  intro c hc
  exact hs.settled_le c (List.mem_reverse.mp hc)

theorem Fits.step? {base : Nat} {s s' : Reading} {token : Token} (hs : s.Fits base)
    (h : s.step? token = some s') : s'.Fits base := by
  have hdepth := hs.depth_eq
  have hle := hs.depth_le
  rcases step?_cases h with
    ⟨v, rfl, rfl⟩ | ⟨v, rfl, hwaiting, hlt, rfl⟩ | ⟨parent, outer, rfl, hne, houter, rfl⟩
  · refine ⟨hdepth, hle, fun c hc => ?_, hs.outer_fit⟩
    rcases List.mem_cons.mp hc with rfl | hc
    · simpa [Tree.leaf, Tree.height_node] using hle
    · exact hs.settled_le c hc
  · refine ⟨?_, hlt, fun _ hc => (nomatch hc), fun c hc => ?_, hs.outer_fit⟩
    · show s.depth + 1 = base + (s.outer.length + 1)
      omega
    · rw [← hdepth]
      refine hs.settled_le c ?_
      rw [Block.settled_of_waiting hwaiting]
      exact List.mem_cons_of_mem _ hc
  · have htree := hs.toTree_height_le
    have hfit := hs.outer_fit
    rw [houter, List.length_cons] at hdepth
    rw [houter] at hfit
    refine ⟨?_, ?_, fun c hc => ?_, hfit.2⟩
    · show s.depth - 1 = base + outer.length
      omega
    · show s.depth - 1 ≤ maxDepth
      omega
    · show s.depth - 1 + c.height ≤ maxDepth
      rcases List.mem_cons.mp hc with rfl | hc
      · omega
      · have := hfit.1 c hc
        omega

theorem height_of_read {base : Nat} {s : Reading} (hs : s.Fits base) {tokens rest : List Token}
    {t : Tree String} (h : s.read tokens = .ok (t, rest)) : base + t.height ≤ maxDepth + 1 := by
  obtain ⟨before, s', rfl, hrun, hstop, hne, rfl⟩ := exists_run?_of_read h
  have hs' : s'.Fits base := run?_invariant Fits.step? hs hrun
  have hdepth := hs'.depth_eq
  rw [outer_eq_nil hstop hne] at hdepth
  have := hs'.toTree_height_le
  simp only [List.length_nil] at hdepth
  omega

end Reading

/-! ## Trees as tokens -/

namespace Tree

theorem head?_tokens (t : Tree String) : t.tokens.head? = some (.value t.value) := by
  obtain ⟨v, cs⟩ := t
  cases cs with
  | nil => rfl
  | cons c cs => rw [tokens_node v (List.cons_ne_nil c cs)]; rfl

/-- In the tokens of a block, nothing that comes next is an opening parenthesis: it is the value of
the next child, or the block ends. -/
theorem head?_flatMap_tokens (cs : List (Tree String)) (rest : List Token) :
    (cs.flatMap tokens ++ .closing :: rest).head? ≠ some .opening := by
  cases cs with
  | nil => simp
  | cons c cs => simp [List.head?_append, head?_tokens]

end Tree

namespace Block

/-- The block with its waiting value made a child. -/
def settle (b : Block) : Block := ⟨b.root, b.settled, none⟩

/-- A value need not wait any longer when no opening parenthesis comes next. -/
theorem read_settle {rest : List Token} (h : rest.head? ≠ some .opening) (depth : Nat) (b : Block)
    (outer : List Block) : read depth b outer rest = read depth b.settle outer rest := by
  match rest with
  | [] => rfl
  | .value v :: rest => rfl
  | .closing :: rest => rfl
  | .opening :: rest => exact absurd rfl h

theorem foldl_addTree (root : String) (finished cs : List (Tree String)) :
    cs.foldl addTree ⟨root, finished, none⟩ = ⟨root, cs.reverse ++ finished, none⟩ := by
  induction cs generalizing finished with
  | nil => rfl
  | cons c cs ih =>
    rw [List.foldl_cons, addTree, ih, List.reverse_cons, List.append_assoc]
    rfl

/-- Whether a tree can be read as a child at every level: if it keeps to the limit it becomes the
next child, and otherwise it is refused, whatever comes behind it. -/
def ReadsChild (t : Tree String) : Prop :=
  ∀ (depth : Nat) (b : Block) (outer : List Block) (rest : List Token), depth ≤ maxDepth →
    rest.head? ≠ some .opening →
    read depth b outer (t.tokens ++ rest) =
      if depth + t.height ≤ maxDepth then read depth (b.settle.addTree t) outer rest
      else .error (.tooDeep maxDepth)

theorem read_flatMap_tokens {cs : List (Tree String)} (hcs : ∀ c ∈ cs, ReadsChild c) {depth : Nat}
    (hd : depth ≤ maxDepth) (b : Block) (outer : List Block) (rest : List Token) :
    read depth b outer (cs.flatMap Tree.tokens ++ .closing :: rest) =
      if ∀ c ∈ cs, depth + c.height ≤ maxDepth then
        read depth (cs.foldl addTree b.settle) outer (.closing :: rest)
      else .error (.tooDeep maxDepth) := by
  induction cs generalizing b with
  | nil => rw [if_pos (by simp)]; exact read_settle (by simp) depth b outer
  | cons c cs ih =>
    rw [List.flatMap_cons, List.append_assoc,
      hcs c (List.mem_cons_self ..) depth b outer _ hd (Tree.head?_flatMap_tokens cs rest)]
    by_cases hc : depth + c.height ≤ maxDepth
    · rw [if_pos hc, ih (fun d hmem => hcs d (List.mem_cons_of_mem c hmem))]
      simp only [List.mem_cons, forall_eq_or_imp, hc, true_and]
      rfl
    · rw [if_neg hc, if_neg fun h => hc (h c (List.mem_cons_self ..))]

/-- A closing parenthesis ends a block with the children `cs`. -/
theorem read_closing (depth : Nat) (v : String) {cs : List (Tree String)} (hcs : cs ≠ [])
    (outer : List Block) (rest : List Token) :
    read depth (cs.foldl addTree (start v).settle) outer (.closing :: rest) =
      match outer with
      | [] => .ok (.node v cs, rest)
      | parent :: outer => read (depth - 1) (parent.addTree (.node v cs)) outer rest := by
  have hfold : cs.foldl addTree (start v).settle = ⟨v, cs.reverse, none⟩ := by
    rw [settle, foldl_addTree, show (start v).settled = [] from rfl, List.append_nil]
    rfl
  have htree : (⟨v, cs.reverse, none⟩ : Block).toTree = .node v cs := by
    rw [toTree, settled, List.reverse_reverse]
  have hempty : (⟨v, cs.reverse, none⟩ : Block).settled.isEmpty = false := by
    simpa [settled] using hcs
  rw [hfold]
  cases outer <;> simp only [read, htree, hempty, Bool.false_eq_true, if_false]

theorem readsChild (t : Tree String) : ReadsChild t := by
  induction t with
  | node v cs ih =>
    intro depth b outer rest hd hrest
    by_cases hcs : cs = []
    · subst hcs
      have hheight : (Tree.node v []).height = 0 := rfl
      rw [hheight, if_pos (by omega)]
      exact read_settle hrest depth (b.addValue v) outer
    · rw [Tree.tokens_node v hcs]
      simp only [List.cons_append, List.append_assoc, List.nil_append]
      rw [read, read]
      simp only [addValue]
      by_cases hlt : depth < maxDepth
      · -- the block of `t` is read one level deeper, and its end leads back
        have hfit : (∀ c ∈ cs, depth + 1 + c.height ≤ maxDepth)
            ↔ depth + (Tree.node v cs).height ≤ maxDepth := by
          rw [← Tree.add_height_le_iff hlt v cs]
          omega
        rw [if_pos hlt, read_flatMap_tokens ih hlt, read_closing _ v hcs]
        simp only [hfit]
        rfl
      · have hpos := Tree.height_pos v hcs
        rw [if_neg hlt, if_neg (by omega)]

end Block

namespace Reading

/-- The children of a block and its end are read as its tree if the tree keeps to the limit, and are
refused as too deep otherwise. -/
theorem read_children {base : Nat} (hbase : base ≤ maxDepth) (root : String)
    {cs : List (Tree String)} (hcs : cs ≠ []) (rest : List Token) :
    (⟨base, .start root, []⟩ : Reading).read (cs.flatMap Tree.tokens ++ .closing :: rest) =
      if base + (Tree.node root cs).height ≤ maxDepth + 1 then .ok (.node root cs, rest)
      else .error (.tooDeep maxDepth) := by
  rw [read, Block.read_flatMap_tokens (fun c _ => Block.readsChild c) hbase,
    Block.read_closing _ root hcs]
  simp only [Tree.add_height_le_iff hbase root cs]

end Reading

end TreeText
