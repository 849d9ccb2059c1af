import TreeText.Command.Basic

/-!
# The log

The log goes to the standard error output, and how often `-d` is given decides how much is logged. The
first line tells which level has been chosen; the lines behind it tell of the steps of the command,
which have something to say at the two finest levels only. What a line looks like is the matter of a
logger: lines hold the time, and how long a step took, so two runs of one call differ in them.

Results:
* `Logger.text_zero`: nothing is logged unless it is asked for.
* `Logger.text_min`: counts that are cut off at 255 are as good as the counts themselves.
-/

namespace TreeText

/-! ## Levels -/

/-- The highest count of `-d` that means something. -/
def maxVerbosity : Nat := 3

/-- How much is logged. -/
inductive LogLevel where
  | warn
  | info
  | debug
  | trace
  deriving DecidableEq, Repr

namespace LogLevel

/-- The level that a count of `-d` stands for. -/
def ofCount : Nat → LogLevel
  | 0 => warn
  | 1 => info
  | 2 => debug
  | _ => trace

/-- The name of a level, five characters wide. -/
def name : LogLevel → String
  | warn => " WARN"
  | info => " INFO"
  | debug => "DEBUG"
  | trace => "TRACE"

theorem ofCount_of_le {n : Nat} (h : maxVerbosity ≤ n) : ofCount n = trace := by
  obtain ⟨m, rfl⟩ := Nat.exists_eq_add_of_le h
  rw [Nat.add_comm]
  rfl

end LogLevel

/-- What is said to a caller who wants more logging than there is. -/
def verbosityNote (debug : Nat) : String :=
  if maxVerbosity < debug then "Don't be crazy, max is -d -d -d\n" else ""

/-! ## Loggers -/

/-- How the log of one run is written. -/
structure Logger where
  /-- The line of what is told at a level. -/
  line : LogLevel → String → String
  /-- The lines that the steps of a command leave where the given level is chosen. -/
  steps : LogLevel → Command → String

namespace Logger

/-- A logger that writes nothing. -/
def silent : Logger := ⟨fun _ _ => "", fun _ _ => ""⟩

/-- A line of the log with a stamp in front. -/
def stampedLine (stamp : String) (level : LogLevel) (text : String) : String :=
  stamp ++ level.name ++ " " ++ programName ++ ": " ++ text ++ "\n"

/-- A logger that writes the same stamp in front of each line, and which tells of the steps of a
command only that they have come to their end. -/
def stamped (stamp : String) : Logger where
  line := stampedLine stamp
  steps _
    | .showSettingsPath | .completion _ => ""
    | _ => stampedLine stamp .debug "close"

/-- The line that tells which level has been chosen. -/
def announcement (l : Logger) : LogLevel → String
  | .warn => ""
  | .info => l.line .info "Debug mode: info"
  | .debug => l.line .debug "Debug mode: debug"
  -- the finest level is told of at the level before it
  | .trace => l.line .debug "Debug mode: trace"

/-- The lines of the steps of a command, if there is one and the level lets them through. -/
def stepLines (l : Logger) : LogLevel → Option Command → String
  | .debug, some command => l.steps .debug command
  | .trace, some command => l.steps .trace command
  | _, _ => ""

/-- What stands on the standard error output when a command has ended, and before its failure is told:
the note on the count of `-d`, and the log. -/
def text (l : Logger) (debug : Nat) (command : Option Command) : String :=
  let level := LogLevel.ofCount debug
  verbosityNote debug ++ l.announcement level ++ l.stepLines level command

theorem text_zero (l : Logger) (command : Option Command) : l.text 0 command = "" := rfl

/-- Counts beyond the highest one that means something are not told apart. -/
theorem text_of_lt (l : Logger) (command : Option Command) {n : Nat} (h : maxVerbosity < n) :
    l.text n command = l.text (maxVerbosity + 1) command := by
  have hnote : verbosityNote n = verbosityNote (maxVerbosity + 1) := by
    rw [verbosityNote, if_pos h]
    rfl
  rw [text, LogLevel.ofCount_of_le (Nat.le_of_lt h), hnote]
  rfl

theorem text_min (l : Logger) (command : Option Command) (n : Nat) :
    l.text (min n 255) command = l.text n command := by
  by_cases h : n ≤ 255
  · rw [Nat.min_eq_left h]
  · have hn : maxVerbosity < n := Nat.lt_trans (by decide) (Nat.lt_of_not_le h)
    rw [Nat.min_eq_right (Nat.le_of_not_le h), text_of_lt l command hn]
    exact text_of_lt l command (by decide)

end Logger

end TreeText
