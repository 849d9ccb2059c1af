import TreeText.Command.Action
import TreeText.Command.Arguments
import TreeText.Command.Completion
import TreeText.Command.Log
import TreeText.Command.Paint
import TreeText.Settings.Load
import TreeText.Settings.Location

/-!
# Running a command

A command runs in surroundings: the settings file, the variables of the environment, the kind of the
output and the logger. It writes to the standard output and then succeeds or fails. On the standard
error output the log comes first, and then what is told about a failure, which sets the exit code.

Results:
* `Command.run_of_logger`: what a command does is not up to the logger.
* `Invocation.exitCode_outcome`, `Invocation.out_outcome`: the exit code is that of the failure, or
  zero, and the standard output holds what the command has written.
-/

namespace TreeText

/-- What a call finds outside the program. -/
structure Surroundings where
  /-- The text of the settings file, if there is one. -/
  file : Option String
  /-- The variables of the environment. -/
  vars : List (String × String)
  /-- Whether the output goes to a terminal. -/
  terminal : Bool
  /-- How the log of this call is written. -/
  logger : Logger

/-- What a command has written when it ends, and why it has failed, if it has. -/
structure Report where
  written : String
  failure : Option Failure
  deriving DecidableEq, Repr

namespace Report

/-- The report of a command that has written all it had to write. -/
def success (written : String) : Report := ⟨written, none⟩

/-- The report of a command that has failed before it wrote anything. -/
def fail (f : Failure) : Report := ⟨"", some f⟩

/-- The report of a command on trees whose result `write` writes. -/
def ofResult {α : Type} (write : α → String) : Except Error α → Report
  | .ok a => success (write a)
  | .error e => fail (.tree e)

end Report

namespace Surroundings

/-- Whether output is painted. -/
def paints (s : Surroundings) : Bool := TreeText.paints s.vars s.terminal

/-- The settings that hold. -/
def settings (s : Surroundings) : Except SettingsError Settings := Settings.load s.file s.vars

/-- A line with a label in front. -/
def labelled (s : Surroundings) (label text : String) : String :=
  paint s.paints labelPaint label ++ ": " ++ text ++ "\n"

/-- The lines that tell a comparison. -/
def comparisonText (s : Surroundings) (c : Comparison) : String :=
  s.labelled "equal" (toString c.equal)
    ++ s.labelled "left hash" (toString c.leftHash.toNat)
    ++ s.labelled "right hash" (toString c.rightHash.toNat)

/-- The line above the settings. -/
def settingsHeader (s : Surroundings) : String :=
  paint s.paints headerPaint "Effective settings" ++ "\n"

/-- What is written about a failure. -/
def failureText (s : Surroundings) (f : Failure) : String :=
  paint s.paints errorPaint "error" ++ ": " ++ f.message ++ "\n"

end Surroundings

namespace Command

/-- What a command does. -/
def run (s : Surroundings) : Command → Report
  | normalize text => .ofResult (· ++ "\n") (normalizeText text)
  | display text layout =>
    match s.settings with
    | .error e => .fail (.settings e)
    | .ok settings =>
      .ofResult id (displayText text (layout.getD settings.layout) settings.indent.toNat)
  | equal left right => .ofResult s.comparisonText (compareTexts left right)
  | evaluate text => .ofResult (fun n => toString n.toInt ++ "\n") (evaluateText text)
  | render text => .ofResult (· ++ "\n") (renderText text)
  | showSettings =>
    match s.settings with
    | .error e => .fail (.settings e)
    | .ok settings =>
      match settings.toToml with
      | .error e => ⟨s.settingsHeader, some (.settings e)⟩
      | .ok text => .success (s.settingsHeader ++ text ++ "\n")
  | showSettingsPath =>
    .success (s.labelled "global"
      ((Settings.Location.settingsFile? s.vars).getD "unavailable (no home directory)"))
  | completion shell => .success shell.script

theorem run_of_logger (c : Command) (s : Surroundings) (l : Logger) :
    c.run { s with logger := l } = c.run s := by
  cases c <;> rfl

end Command

/-- What the caller of the program gets to see. -/
structure Outcome where
  exitCode : Nat
  out : String
  err : String
  deriving DecidableEq, Repr

namespace Invocation

/-- What the command of a call does; a call without a command is a mistake. -/
def report (s : Surroundings) (i : Invocation) : Report :=
  match i.command with
  | some command => command.run s
  | none => .fail (.usage "no command given, see --help")

/-- The outcome of a call. A failure is told behind the log. -/
def outcome (s : Surroundings) (i : Invocation) : Outcome :=
  let r := i.report s
  let log := s.logger.text i.debug i.command
  match r.failure with
  | none => ⟨0, r.written, log⟩
  | some f => ⟨f.exitCode, r.written, log ++ s.failureText f⟩

theorem exitCode_outcome (s : Surroundings) (i : Invocation) :
    (i.outcome s).exitCode = ((i.report s).failure.map Failure.exitCode).getD 0 := by
  cases h : (i.report s).failure <;> simp [outcome, h]

theorem out_outcome (s : Surroundings) (i : Invocation) :
    (i.outcome s).out = (i.report s).written := by
  cases h : (i.report s).failure <;> simp [outcome, h]

end Invocation

end TreeText
