import TreeText.Command.Call

/-!
# The program

Reads the environment and the settings file, runs the call, writes what it has to say, and exits. The
lines of the log hold no times.
-/

namespace TreeText

/-- The variables in the bytes of an environment, where each entry ends with a zero byte. -/
def variablesOfBytes (bytes : ByteArray) : List (String × String) :=
  ((String.fromUTF8? bytes).getD "").splitOn "\x00" |>.filterMap fun entry =>
    match entry.splitOn "=" with
    | name :: value@(_ :: _) => some (name, "=".intercalate value)
    | _ => none

/-- The variables of the environment. -/
def readVariables : IO (List (String × String)) := do
  try
    pure (variablesOfBytes (← IO.FS.readBinFile "/proc/self/environ"))
  catch _ => pure []

/-- The text of the settings file, if there is one. Bytes that are no text make it malformed. -/
def readSettingsFile (vars : List (String × String)) : IO (Option String) := do
  match Settings.Location.settingsFile? vars with
  | none => pure none
  | some path =>
    try
      pure (some ((String.fromUTF8? (← IO.FS.readBinFile path)).getD "\x00"))
    catch _ => pure none

/-- Runs a call and gives its exit code. -/
def runCall (arguments : List String) : IO UInt32 := do
  let vars ← readVariables
  let surroundings : Surroundings :=
    ⟨← readSettingsFile vars, vars, ← (← IO.getStdout).isTty, .stamped ""⟩
  let outcome := Outcome.ofArguments surroundings arguments
  IO.print outcome.out
  IO.eprint outcome.err
  pure (UInt32.ofNat outcome.exitCode)

end TreeText

/-- The entry point. -/
def main (arguments : List String) : IO UInt32 := TreeText.runCall arguments
