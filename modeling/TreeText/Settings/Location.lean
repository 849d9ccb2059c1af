/-!
# Where the settings file lies

The settings file lies in a directory of its own below the directory for configuration. That one is
named by a variable of the environment, which counts only if it holds an absolute path, or else it is
a fixed place below the home directory.
-/

namespace TreeText.Settings

namespace Location

/-- The path of `name` in the directory `base`. -/
def under (base name : String) : String :=
  if base = "" || base.toList.getLast? = some '/' then base ++ name else base ++ "/" ++ name

/-- The directory for configuration. -/
def configurationHome? (vars : List (String × String)) : Option String :=
  match vars.lookup "XDG_CONFIG_HOME" with
  | some dir => if dir.toList.head? = some '/' then some dir else belowHome
  | none => belowHome
where
  /-- The place below the home directory. -/
  belowHome : Option String :=
    match vars.lookup "HOME" with
    | some "" | none => none
    | some home => some (under home ".config")

/-- The path of the settings file, if there is a home directory. -/
def settingsFile? (vars : List (String × String)) : Option String :=
  (configurationHome? vars).map fun dir => under (under dir "arbor") "arbor.toml"

end Location

end TreeText.Settings
