import TreeText.Settings.Basic
import TreeText.Settings.Environment
import TreeText.Toml.Document

/-!
# Loading and writing settings

Settings are loaded in three layers: the defaults, then the settings file, then the environment. A
file that is not there is no layer, but a malformed one is an error, whatever the other layers say.
Only the values that remain when all layers are laid over each other are converted.

Written settings are a settings file again; the format has no integers beyond `maxInt64`.

Results:
* `Settings.load_of_malformed`: a malformed file is an error in every environment.
* `Settings.toToml_eq_error_iff`: the settings that cannot be written.
-/

namespace TreeText

namespace Settings

/-- The key of the layout. -/
def layoutKey : String := "show_style"

/-- The key of the indent. -/
def indentKey : String := "indent"

/-- The lowest layer. -/
def defaultLayer : Layer :=
  [(layoutKey, .text default.layout.name), (indentKey, .integer default.indent.toNat)]

/-- The layer of a settings file, or of none. -/
def fileLayer : Option String → Except SettingsError Layer
  | none => .ok []
  | some source =>
    match Toml.document source with
    | some entries => .ok entries
    | none => .error (.load "the settings file is malformed")

/-- The settings that the values of a table stand for. -/
def ofTable (root : Value) : Except SettingsError Settings :=
  match layoutOf (root.get layoutKey) with
  | .error e => .error e
  | .ok layout =>
    match indentOf (root.get indentKey) with
    | .error e => .error e
    | .ok indent => .ok ⟨layout, indent⟩

/-- Loads the settings from the text of the settings file, if there is one, and the variables of the
environment. -/
def load (file : Option String) (vars : List (String × String)) :
    Except SettingsError Settings :=
  match fileLayer file with
  | .error e => .error e
  | .ok layer => ofTable (collect [defaultLayer, layer, environmentLayer vars])

/-- The settings as the text of a settings file, whose integers are signed and have 64 bits. -/
def toToml (s : Settings) : Except SettingsError String :=
  if s.indent.toNat ≤ maxInt64 then
    .ok (layoutKey ++ " = \"" ++ s.layout.name ++ "\"\n"
      ++ indentKey ++ " = " ++ toString s.indent.toNat ++ "\n")
  else .error (.render "out-of-range value for u64 type")

theorem load_of_malformed {source : String} (h : Toml.document source = none)
    (vars : List (String × String)) : ∃ reason, load (some source) vars = .error (.load reason) := by
  simp [load, fileLayer, h]

/-- Settings cannot be written if the indent is larger than the integers of a settings file. -/
theorem toToml_eq_error_iff {settings : Settings} {e : SettingsError} :
    settings.toToml = .error e ↔
      maxInt64 < settings.indent.toNat ∧ e = .render "out-of-range value for u64 type" := by
  unfold toToml
  split <;> rename_i hle
  · simp only [reduceCtorEq, false_iff, not_and]
    omega
  · have hlt : maxInt64 < settings.indent.toNat := by omega
    simpa [hlt] using eq_comm

end Settings

end TreeText
