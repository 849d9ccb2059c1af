import TreeText.Command.Arguments

/-!
# Reading arguments one by one

What the arguments of a call do to the state of their reader, by kinds of arguments: a leading `-d`
counts one up, the name of a member leads into the group, and an argument that cannot be an option is
an operand. Behind `--` all arguments are operands, whatever they look like.

Results:
* `State.read_flags`: leading flags change the count only.
* `State.read_member`: the name of a member leads into it.
* `State.read_operand`: an argument without a hyphen in front is an operand as it stands.
* `State.read_unknown_letter`: a letter of no option is refused.
* `State.settle_readTrailing`: every argument behind `--` is an operand as it stands.
* `State.read_names`: the names of a group and a command lead to the command.
* `Invocation.ofArguments_trailing`: the call whose operands stand behind `--`.
-/

namespace TreeText

/-- The flag that raises the count, `n` times. -/
def debugFlags (n : Nat) : List String := List.replicate n "-d"

namespace Level

/-- The command that the name of a group and the name of a member of it lead to. -/
def named? (group name : String) : Option Level :=
  (program.members.lookup group).bind fun g => g.members.lookup name

/-- No name of a member looks like an option. -/
theorem head?_ne_hyphen_of_mem_members {l : Level} {m : String × Level} (h : m ∈ l.members) :
    m.1.toList.head? ≠ some '-' := by
  have hall : l.members.all (fun m => m.1.toList.head? != some '-') = true := by
    cases l <;> decide
  simpa using List.all_eq_true.mp hall m h

/-- Options and `--` are no names. -/
theorem isMemberName_of_hyphen (l : Level) {word : String} (h : word.toList.head? = some '-') :
    l.isMemberName word = false := by
  have hlookup : l.members.lookup word = none := by
    rw [List.lookup_eq_none_iff]
    intro m hm
    rw [bne_iff_ne]
    rintro rfl
    exact head?_ne_hyphen_of_mem_members hm h
  have hhelp : word ≠ "help" := by
    rintro rfl
    nomatch h
  simp [isMemberName, hlookup, hhelp]

theorem isMemberName_of_lookup {l member : Level} {name : String}
    (h : l.members.lookup name = some member) : l.isMemberName name = true := by
  have hne : l.members ≠ [] := by
    intro hnil
    rw [hnil] at h
    nomatch h
  simp [isMemberName, isGroup, h, hne]

/-- A command has no members. -/
theorem isMemberName_of_command {l : Level} (h : l.isGroup = false) (word : String) :
    l.isMemberName word = false := by
  rw [isMemberName, h, Bool.false_and]

end Level

namespace State

/-! ## Checking what is pending -/

theorem settle_of_nothing {s : State} (h : s.pending = .nothing) : s.settle = .ok s := by
  rw [settle, h]

/-- What is checked is no longer pending, and has been counted before. -/
theorem of_settle {s s' : State} (h : s.settle = .ok s') :
    s'.pending = .nothing ∧ s'.level = s.level ∧ s'.operandCount = s.operandCount := by
  unfold settle at h
  split at h
  · cases h
    exact ⟨‹_›, rfl, rfl⟩
  · rename_i text hpending
    split at h
    · cases h
      refine ⟨rfl, rfl, ?_⟩
      simp [operandCount, hpending]
    · nomatch h
  · nomatch h
  · rename_i value hpending
    split at h
    · nomatch h
    · split at h
      · cases h
        refine ⟨rfl, rfl, ?_⟩
        simp [operandCount, hpending]
      · nomatch h

theorem settle_pending_operand {s : State} (h : s.level ≠ .completion) (text : String) :
    { s with pending := .operand text }.settle
      = .ok { s with operands := text :: s.operands, pending := .nothing } := by
  simp [settle, Level.acceptsOperand, h]

/-! ## Arguments in front of `--` -/

theorem read_flag {s : State} (h : s.pending = .nothing) (rest : List String) :
    s.read ("-d" :: rest) = { s with debug := min (s.debug + 1) 255 }.read rest := by
  have hname : s.level.isMemberName "-d" = false := s.level.isMemberName_of_hyphen rfl
  have hargument : s.readArgument "-d" = .ok { s with debug := min (s.debug + 1) 255 } := by
    show s.readLetters ['d'] = _
    simp only [readLetters, Switch.ofLetter?, settle_of_nothing h, flag]
  rw [read]
  simp [hname, hargument]

theorem read_flags {s : State} (h : s.pending = .nothing) (hle : s.debug ≤ 255) (n : Nat)
    (rest : List String) :
    s.read (debugFlags n ++ rest) = { s with debug := min (s.debug + n) 255 }.read rest := by
  induction n generalizing s with
  | zero =>
    have hdebug : min (s.debug + 0) 255 = s.debug := by omega
    rw [hdebug]
    rfl
  | succ n ih =>
    have hdebug : min (min (s.debug + 1) 255 + n) 255 = min (s.debug + (n + 1)) 255 := by omega
    have hnext : min (s.debug + 1) 255 ≤ 255 := Nat.min_le_right ..
    rw [debugFlags, List.replicate_succ, List.cons_append, read_flag h, ← debugFlags,
      ih (s := { s with debug := min (s.debug + 1) 255 }) h hnext]
    simp only [hdebug]

theorem read_member {s : State} {name : String} {member : Level} (h : s.awaitsValue = false)
    (hmember : s.level.members.lookup name = some member) (rest : List String) :
    s.read (name :: rest) = (s.enter name member).read rest := by
  rw [read, Level.isMemberName_of_lookup hmember, h, hmember]
  rfl

/-- The option for the style, with its value as an argument of its own. -/
theorem read_style {s : State} (h : s.pending = .nothing) (hlevel : s.level = .display)
    (l : Layout) (rest : List String) :
    s.read ("--style" :: l.name :: rest) = { s with pending := .style (some l.name) }.read rest := by
  have hname : s.level.isMemberName "--style" = false := s.level.isMemberName_of_hyphen rfl
  have hoption : s.readArgument "--style" = .ok { s with pending := .style none } := by
    show s.readLong "style" none = _
    simp only [readLong, Switch.ofName?, hlevel, if_true, settle_of_nothing h, flag]
  have hvalue : { s with pending := .style none }.readArgument l.name
      = .ok { s with pending := .style (some l.name) } := by
    cases l <;> rfl
  have hdashes : l.name ≠ "--" := by cases l <;> decide
  rw [read]
  simp [hname, hoption, read, awaitsValue, hdashes, hvalue]

/-- The operands of a command are taken as they stand unless they look like options. -/
theorem read_operand {s : State} {text : String} (h : s.pending = .nothing)
    (hcommand : s.level.isGroup = false) (hcount : s.operandCount < s.level.operands)
    (hhead : text.toList.head? ≠ some '-') (rest : List String) :
    s.read (text :: rest) = { s with pending := .operand text }.read rest := by
  have hdashes : text ≠ "--" := by
    rintro rfl
    exact hhead rfl
  have hargument : s.readArgument text = .ok { s with pending := .operand text } := by
    unfold readArgument
    split
    · rename_i hlist
      rw [hlist] at hhead
      exact absurd rfl hhead
    · rename_i hlist
      rw [hlist] at hhead
      exact absurd rfl hhead
    · simp [awaitsValue, h, readOperand, hcount, settle_of_nothing h, Except.map]
  rw [read]
  simp [Level.isMemberName_of_command hcommand, hdashes, hargument]

/-- A hyphen and a letter that names no option make an argument that is refused. -/
theorem read_unknown_letter {s : State} {text : String} {c : Char} {cs : List Char}
    (htext : text.toList = '-' :: c :: cs) (hhyphen : c ≠ '-')
    (hletter : Switch.ofLetter? s.level c = none) (rest : List String) :
    s.read (text :: rest) = .error .unknownArgument := by
  have hname : s.level.isMemberName text = false :=
    s.level.isMemberName_of_hyphen (by rw [htext]; rfl)
  have hdashes : text ≠ "--" := by
    rintro rfl
    cases htext
    exact hhyphen rfl
  have hargument : s.readArgument text = .error .unknownArgument := by
    unfold readArgument
    split
    · rename_i hlist
      rw [htext] at hlist
      cases hlist
      exact absurd rfl hhyphen
    · rename_i hlist
      rw [htext] at hlist
      cases hlist
      simp only [readLetters, hletter]
    · rename_i hother
      exact absurd htext (hother c cs)
  rw [read]
  simp [hname, hdashes, hargument]

/-! ## Arguments behind `--` -/

theorem read_dashes (s : State) (rest : List String) :
    s.read ("--" :: rest) = s.readTrailing rest := by
  have hname : s.level.isMemberName "--" = false := s.level.isMemberName_of_hyphen rfl
  rw [read]
  simp [hname]

/-- Behind `--` every argument becomes an operand as it stands, as long as there are not too many. -/
theorem settle_readTrailing {s s' : State} (h : s.settle = .ok s') (hlevel : s.level ≠ .completion)
    {texts : List String} (hcount : s.operandCount + texts.length ≤ s.level.operands) :
    (s.readTrailing texts).bind settle
      = .ok { s' with operands := texts.reverse ++ s'.operands } := by
  induction texts generalizing s s' with
  | nil => exact h
  | cons text texts ih =>
    obtain ⟨hpending, hsame, hsettled⟩ := of_settle h
    have hroom : s.operandCount < s.level.operands := by
      rw [List.length_cons] at hcount
      omega
    have hread : s.readOperand true text = .ok { s' with pending := .operand text } := by
      rw [readOperand, if_pos hroom, h]
      rfl
    have hoperands : s'.operandCount = s'.operands.length := by
      simp [operandCount, hpending]
    have hnext := ih (settle_pending_operand (hsame ▸ hlevel) text) (hsame ▸ hlevel) (by
      rw [List.length_cons] at hcount
      simp only [operandCount]
      rw [hsame]
      omega)
    rw [readTrailing, hread]
    simp only [hnext, List.reverse_cons, List.append_assoc, List.cons_append, List.nil_append,
      ← hpending]

end State

/-! ## Whole calls -/

namespace Invocation

theorem ofArguments_of_settled {arguments : List String} {s : State}
    (h : (State.start.read arguments).bind State.settle = .ok s) :
    ofArguments arguments = s.command.map fun command => ⟨s.verbosity, command⟩ := by
  unfold ofArguments
  cases hread : State.start.read arguments with
  | error r =>
    rw [hread] at h
    nomatch h
  | ok s₁ =>
    rw [hread] at h
    have hsettle : s₁.settle = .ok s := h
    simp only [State.invocation, hsettle]

/-- The call whose operands stand behind `--`, when `s` is the state that the arguments in front of
it lead to. -/
theorem ofArguments_trailing {arguments : List String} {s s' : State}
    (hread : ∀ rest, State.start.read (arguments ++ rest) = s.read rest)
    (hsettle : s.settle = .ok s') (hlevel : s.level ≠ .completion) (texts : List String)
    (hcount : s.operandCount + texts.length ≤ s.level.operands) :
    ofArguments (arguments ++ "--" :: texts)
      = { s' with operands := texts.reverse ++ s'.operands }.command.map
          fun command => ⟨s'.verbosity, command⟩ := by
  rw [ofArguments_of_settled (s := { s' with operands := texts.reverse ++ s'.operands })]
  · rfl
  · rw [hread, State.read_dashes, State.settle_readTrailing hsettle hlevel hcount]

end Invocation

namespace State

/-- Nothing has been read but the names that lead to a command, behind `count` flags. -/
def atCommand (count : Nat) (group name : String) (l : Level) : State :=
  ⟨l, [programName, group, name], count, 0, [], none, .nothing⟩

theorem read_names {group name : String} {l : Level} (h : Level.named? group name = some l) (n : Nat)
    (rest : List String) :
    start.read (debugFlags n ++ [group, name] ++ rest)
      = (atCommand (min n 255) group name l).read rest := by
  obtain ⟨g, hgroup, hname⟩ := Option.bind_eq_some_iff.mp h
  have hcount : start.debug + n = n := Nat.zero_add n
  -- the count is carried from the level of the program down to that of the command
  have hstate : ({ start with debug := min n 255 }.enter group g).enter name l
      = atCommand (min n 255) group name l := by
    by_cases h : min n 255 = 0 <;> simp [enter, verbosity, start, atCommand, h]
  rw [List.append_assoc, read_flags rfl (by decide), hcount, List.cons_append, List.cons_append,
    List.nil_append, read_member rfl hgroup, read_member rfl hname, hstate]

end State

end TreeText
