import TreeText.Command.Call
import TreeText.Proofs.Command.Arguments

/-!
# Flags in front of a call

How often `-d` is given in front of a call decides how much is logged on the standard error output, and
nothing else. Take two states that differ in such counts only. Whatever arguments follow, they are
refused for the same reason from both states, or lead to two such states again. At the end the same
command has been read, and it does the same whatever the logger is.

Results:
* `State.Alike.read`: reading goes on in lockstep.
* `Invocation.ofArguments_debugFlags`: flags in front change neither the refusal nor the command.
* `Outcome.ofArguments_debugFlags`: neither they nor the logger change the exit code or the standard
  output.
-/

namespace TreeText

/-- Two readings are refused for the same reason, or lead to what `r` relates. -/
inductive Lockstep {α : Type} (r : α → α → Prop) : Except Refusal α → Except Refusal α → Prop where
  | error (e : Refusal) : Lockstep r (.error e) (.error e)
  | ok {a b : α} (h : r a b) : Lockstep r (.ok a) (.ok b)

/-- A case for readings that are refused and one for readings that lead on. -/
@[elab_as_elim]
theorem Lockstep.elim {α : Type} {r : α → α → Prop}
    {motive : Except Refusal α → Except Refusal α → Prop} {x y : Except Refusal α}
    (h : Lockstep r x y) (refused : ∀ e, motive (.error e) (.error e))
    (led : ∀ a b, r a b → motive (.ok a) (.ok b)) : motive x y := by
  cases h with
  | error e => exact refused e
  | ok h => exact led _ _ h

namespace State

/-- A state with other counts of flags. The count of the level itself is the same, except at the
level of the program: a group that is called without a member tells from its own count whether it
was called without anything. -/
inductive Alike (s : State) : State → Prop where
  | recount (outer own : Nat) (h : s.level = .program ∨ own = s.debug) :
    Alike s { s with outerDebug := outer, debug := own }

namespace Alike

variable {s s' : State}

theorem level_eq (h : s.Alike s') : s'.level = s.level := by
  obtain ⟨outer, own, hown⟩ := h
  rfl

theorem pend (h : s.Alike s') (p : Pending) :
    Alike { s with pending := p } { s' with pending := p } := by
  obtain ⟨outer, own, hown⟩ := h
  exact .recount outer own hown

/-! ## One argument -/

theorem settle (h : s.Alike s') : Lockstep Alike s.settle s'.settle := by
  obtain ⟨outer, own, hown⟩ := h
  unfold State.settle
  cases hpending : s.pending with
  | nothing => exact .ok (hpending ▸ .recount outer own hown)
  | operand text =>
    simp only
    split
    · exact .ok (.recount outer own hown)
    · exact .error _
  | style value =>
    cases value with
    | none => exact .error _
    | some value =>
      simp only
      split
      · exact .error _
      · split
        · exact .ok (.recount outer own hown)
        · exact .error _

theorem setStyle (h : s.Alike s') (value : String) :
    Lockstep Alike (s.setStyle value) (s'.setStyle value) := by
  unfold State.setStyle
  exact h.settle.elim .error fun _ _ ht => (ht.pend (.style (some value))).settle

theorem flag (h : s.Alike s') (switch : Switch) :
    Lockstep Alike (s.flag switch) (s'.flag switch) := by
  cases switch with
  | debug =>
    obtain ⟨outer, own, hown⟩ := h
    exact .ok (.recount outer _ (hown.imp id fun h => by rw [h]))
  | help => exact .error _
  | version =>
    obtain ⟨outer, own, hown⟩ := h
    exact .error _
  | style => exact .ok (h.pend (.style none))

theorem readLong (h : s.Alike s') (name : String) (value : Option String) :
    Lockstep Alike (s.readLong name value) (s'.readLong name value) := by
  unfold State.readLong
  rw [h.level_eq]
  cases Switch.ofName? s.level name with
  | none => exact .error _
  | some switch =>
    cases value with
    | none =>
      simp only
      exact h.settle.elim .error fun _ _ ht => ht.flag switch
    | some value =>
      cases switch with
      | style => exact h.setStyle value
      | debug => exact .error _
      | help => exact .error _
      | version => exact .error _

theorem readLetters (h : s.Alike s') (letters : List Char) :
    Lockstep Alike (s.readLetters letters) (s'.readLetters letters) := by
  induction letters generalizing s s' with
  | nil => exact .ok h
  | cons c rest ih =>
    unfold State.readLetters
    rw [h.level_eq]
    cases Switch.ofLetter? s.level c with
    | none => exact .error _
    | some switch =>
      simp only
      -- the style may take the letters behind it as its value, all others go on with them
      split
      · exact h.setStyle _
      · exact h.setStyle _
      · refine h.settle.elim .error fun t t' ht => ?_
        simp only
        exact (ht.flag switch).elim .error fun _ _ ht => ih ht

theorem readOperand (h : s.Alike s') (trailing : Bool) (text : String) :
    Lockstep Alike (s.readOperand trailing text) (s'.readOperand trailing text) := by
  have hcount : s'.operandCount = s.operandCount := by
    obtain ⟨outer, own, hown⟩ := h
    rfl
  unfold State.readOperand
  rw [h.level_eq, hcount]
  split
  · exact h.settle.elim .error fun _ _ ht => .ok (ht.pend (.operand text))
  · split
    · exact .error _
    · exact .error _

theorem awaitsValue_eq (h : s.Alike s') : s'.awaitsValue = s.awaitsValue := by
  obtain ⟨outer, own, hown⟩ := h
  rfl

theorem readArgument (h : s.Alike s') (argument : String) :
    Lockstep Alike (s.readArgument argument) (s'.readArgument argument) := by
  unfold State.readArgument
  rw [h.awaitsValue_eq]
  split
  · simp only
    split
    · exact h.readLong _ none
    · exact h.readLong _ (some _)
  · exact h.readLetters _
  · split
    · exact .ok (h.pend (.style (some argument)))
    · exact h.readOperand false argument

/-! ## Arguments to their end -/

theorem readTrailing (h : s.Alike s') (texts : List String) :
    Lockstep Alike (s.readTrailing texts) (s'.readTrailing texts) := by
  induction texts generalizing s s' with
  | nil => exact .ok h
  | cons text texts ih =>
    unfold State.readTrailing
    exact (h.readOperand true text).elim .error fun _ _ ht => ih ht

theorem enter (h : s.Alike s') (name : String) (member : Level) :
    Alike (s.enter name member) (s'.enter name member) := by
  obtain ⟨outer, own, hown⟩ := h
  exact .recount _ 0 (.inr rfl)

/-- Two states that differ in counts only read the same arguments in lockstep. -/
theorem read (h : s.Alike s') (arguments : List String) :
    Lockstep Alike (s.read arguments) (s'.read arguments) := by
  induction arguments generalizing s s' with
  | nil => exact .ok h
  | cons argument rest ih =>
    unfold State.read
    rw [h.level_eq, h.awaitsValue_eq]
    split
    · split
      · exact ih (h.enter argument _)
      · exact .error _
    · split
      · exact h.readTrailing rest
      · exact (h.readArgument argument).elim .error fun _ _ ht => ih ht

/-- The program takes no command from its own count, and the other levels have the same one. -/
theorem command_eq (h : s.Alike s') : s'.command = s.command := by
  obtain ⟨outer, own, hprogram | rfl⟩ := h
  · simp only [State.command, hprogram]
  · rfl

theorem invocation (h : s.Alike s') :
    Lockstep (fun i j => i.command = j.command) s.invocation s'.invocation := by
  unfold State.invocation
  refine h.settle.elim .error fun t t' ht => ?_
  simp only [ht.command_eq]
  cases t.command with
  | error e => exact .error e
  | ok command => exact .ok rfl

end Alike

end State

/-! ## Calls -/

/-- Flags in front of a call change neither why it is refused nor what its command is. -/
theorem Invocation.ofArguments_debugFlags (n : Nat) (arguments : List String) :
    Lockstep (fun i j => i.command = j.command) (ofArguments arguments)
      (ofArguments (debugFlags n ++ arguments)) := by
  have hflags : State.start.read (debugFlags n ++ arguments)
      = { State.start with debug := min (0 + n) 255 }.read arguments :=
    State.read_flags rfl (by decide) n arguments
  have hstart : State.start.Alike { State.start with debug := min (0 + n) 255 } :=
    .recount 0 _ (.inl rfl)
  unfold ofArguments
  rw [hflags]
  exact (hstart.read arguments).elim .error fun _ _ ht => ht.invocation

/-- Calls of the same command differ at most in what they log. -/
theorem Invocation.outcome_of_command_eq {i j : Invocation} (h : i.command = j.command)
    (s : Surroundings) (l : Logger) :
    (i.outcome s).exitCode = (j.outcome { s with logger := l }).exitCode ∧
      (i.outcome s).out = (j.outcome { s with logger := l }).out := by
  have hreport : i.report s = j.report { s with logger := l } := by
    rw [report, report, h]
    cases j.command with
    | none => rfl
    | some command => exact (command.run_of_logger s l).symm
  rw [exitCode_outcome, exitCode_outcome, out_outcome, out_outcome, hreport]
  exact ⟨rfl, rfl⟩

/-- Whatever a call is, flags in front of it change neither the exit code nor the standard output, and
neither does the logger. -/
theorem Outcome.ofArguments_debugFlags (s : Surroundings) (n : Nat) (arguments : List String)
    (l : Logger) :
    (ofArguments s (debugFlags n ++ arguments)).exitCode
        = (ofArguments { s with logger := l } arguments).exitCode ∧
      (ofArguments s (debugFlags n ++ arguments)).out
        = (ofArguments { s with logger := l } arguments).out := by
  unfold ofArguments
  refine (Invocation.ofArguments_debugFlags n arguments).elim (fun e => ⟨rfl, rfl⟩) fun i j hij => ?_
  exact Invocation.outcome_of_command_eq hij.symm s l

end TreeText
