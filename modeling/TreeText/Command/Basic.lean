import TreeText.Error
import TreeText.Settings.Basic

/-!
# Commands

What the program can be asked to do, and how its failures are told to the shell that called it: a
wrong call, bad data, a fault of arithmetic and bad settings have exit codes of their own.

Results:
* `Failure.exitCode_ne_zero`: a failure is never taken for a success.
-/

namespace TreeText

/-- The name of the program. -/
def programName : String := "arbor"

/-- The version of the program. -/
def programVersion : String := "0.1.0"

/-- The shells for which completions can be had. -/
inductive Shell where
  | bash
  | elvish
  | fish
  | powershell
  | zsh
  deriving DecidableEq, Repr

/-- The shell of a name. -/
def Shell.ofName? : String → Option Shell
  | "bash" => some bash
  | "elvish" => some elvish
  | "fish" => some fish
  | "powershell" => some powershell
  | "zsh" => some zsh
  | _ => none

/-- What the program can be asked to do. -/
inductive Command where
  /-- Print the canonical form of a tree. -/
  | normalize (text : String)
  /-- Print a tree with one node on each line. -/
  | display (text : String) (layout : Option Layout)
  /-- Compare two trees. -/
  | equal (left right : String)
  /-- Print the value of an expression. -/
  | evaluate (text : String)
  /-- Print an expression with its operators between their operands. -/
  | render (text : String)
  /-- Print the settings. -/
  | showSettings
  /-- Print where the settings file lies. -/
  | showSettingsPath
  /-- Print completions for a shell. -/
  | completion (shell : Shell)
  deriving DecidableEq, Repr

/-- A call of the program: how much is to be logged, and the command, if there is one. -/
structure Invocation where
  debug : Nat
  command : Option Command
  deriving DecidableEq, Repr

/-- Why a command fails. -/
inductive Failure where
  | tree (e : Error)
  | settings (e : SettingsError)
  | usage (message : String)
  deriving DecidableEq, Repr

namespace Failure

/-- What the user is told. -/
def message : Failure → String
  | tree e => e.message
  | settings e => e.message
  | usage message => message

/-- The exit code of a wrong call. -/
def usageCode : Nat := 64

/-- The exit code of bad data. -/
def dataCode : Nat := 65

/-- The exit code of a fault of arithmetic. -/
def faultCode : Nat := 70

/-- The exit code of bad settings. -/
def settingsCode : Nat := 78

/-- The exit code of a failure. -/
def exitCode : Failure → Nat
  | tree e => if e.isArithmetic then faultCode else dataCode
  | settings _ => settingsCode
  | usage _ => usageCode

theorem exitCode_ne_zero (f : Failure) : f.exitCode ≠ 0 := by
  cases f <;> simp only [exitCode, settingsCode, usageCode]
  · split <;> simp [faultCode, dataCode]
  · simp
  · simp

end Failure

end TreeText
