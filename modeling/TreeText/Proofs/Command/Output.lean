import TreeText.Proofs.Command.Calls

/-!
# Output of calls that fail

A call that fails has written nothing to the standard output, so that its caller may use all that
stands there. There is one exception: the settings are shown below a header, and the header is
written before it is known whether they can be written. They cannot be written if the indent does not
fit in 63 bits, and then the header stands alone.

Results:
* `Command.isPartial_run_iff`: the command that can fail after it has written something.
* `Outcome.isPartial_iff`: the calls that fail after they have written something.
-/

namespace TreeText

/-! ## Partial output -/

/-- Something was written before the command failed. -/
def Report.IsPartial (r : Report) : Prop := r.failure ≠ none ∧ r.written ≠ ""

/-- Something was written by a call that failed. -/
def Outcome.IsPartial (o : Outcome) : Prop := o.exitCode ≠ 0 ∧ o.out ≠ ""

namespace Report

theorem not_isPartial_success (written : String) : ¬ (success written).IsPartial :=
  fun h => h.1 rfl

theorem not_isPartial_fail (f : Failure) : ¬ (fail f).IsPartial :=
  fun h => h.2 rfl

theorem not_isPartial_ofResult {α : Type} (write : α → String) (result : Except Error α) :
    ¬ (ofResult write result).IsPartial := by
  cases result with
  | ok a => exact not_isPartial_success (write a)
  | error e => exact not_isPartial_fail (.tree e)

end Report

/-! ## Showing settings -/

theorem Surroundings.settingsHeader_ne_empty (s : Surroundings) : s.settingsHeader ≠ "" := by
  simp [settingsHeader]

/-- The settings are loaded, but cannot be written. -/
def Surroundings.HasUnwritable (s : Surroundings) : Prop :=
  ∃ settings, s.settings = .ok settings ∧ maxInt64 < settings.indent.toNat

namespace Command

theorem run_showSettings_of_hasUnwritable {s : Surroundings} (h : s.HasUnwritable) :
    showSettings.run s
      = ⟨s.settingsHeader, some (.settings (.render "out-of-range value for u64 type"))⟩ := by
  obtain ⟨settings, hsettings, hlt⟩ := h
  rw [run, hsettings]
  simp only [Settings.toToml_eq_error_iff.mpr ⟨hlt, rfl⟩]

theorem hasUnwritable_of_isPartial {s : Surroundings} (h : (showSettings.run s).IsPartial) :
    s.HasUnwritable := by
  cases hsettings : s.settings with
  | error e =>
    rw [run, hsettings] at h
    exact absurd h (Report.not_isPartial_fail _)
  | ok settings =>
    cases htoml : settings.toToml with
    | error e => exact ⟨settings, hsettings, (Settings.toToml_eq_error_iff.mp htoml).1⟩
    | ok text =>
      rw [run, hsettings] at h
      simp only [htoml] at h
      exact absurd h (Report.not_isPartial_success _)

/-- All other commands compute what they have to say before they write it. -/
theorem not_isPartial_run {c : Command} (h : c ≠ showSettings) (s : Surroundings) :
    ¬ (c.run s).IsPartial := by
  cases c with
  | normalize text => exact Report.not_isPartial_ofResult _ _
  | display text layout =>
    cases hsettings : s.settings with
    | error e =>
      rw [run_display_of_settings_error hsettings]
      exact Report.not_isPartial_fail _
    | ok settings =>
      rw [run_display_of_settings_ok hsettings]
      exact Report.not_isPartial_ofResult _ _
  | equal left right => exact Report.not_isPartial_ofResult _ _
  | evaluate text => exact Report.not_isPartial_ofResult _ _
  | render text => exact Report.not_isPartial_ofResult _ _
  | showSettings => exact absurd rfl h
  | showSettingsPath => exact Report.not_isPartial_success _
  | completion shell => exact Report.not_isPartial_success _

theorem isPartial_run_iff {c : Command} {s : Surroundings} :
    (c.run s).IsPartial ↔ c = showSettings ∧ s.HasUnwritable := by
  constructor
  · intro h
    obtain rfl : c = showSettings :=
      Decidable.byContradiction fun hne => not_isPartial_run hne s h
    exact ⟨rfl, hasUnwritable_of_isPartial h⟩
  · rintro ⟨rfl, h⟩
    rw [run_showSettings_of_hasUnwritable h]
    exact ⟨Option.some_ne_none _, s.settingsHeader_ne_empty⟩

end Command

/-! ## Calls -/

theorem Invocation.isPartial_outcome_iff {i : Invocation} {s : Surroundings} :
    (i.outcome s).IsPartial ↔ (i.report s).IsPartial := by
  rw [Outcome.IsPartial, Report.IsPartial, exitCode_outcome, out_outcome]
  cases (i.report s).failure with
  | none => simp
  | some f => simp [Failure.exitCode_ne_zero]

theorem Invocation.isPartial_report_iff {i : Invocation} {s : Surroundings} :
    (i.report s).IsPartial ↔ i.command = some .showSettings ∧ s.HasUnwritable := by
  obtain ⟨debug, command⟩ := i
  cases command with
  | none =>
    simp only [reduceCtorEq, false_and, iff_false]
    exact Report.not_isPartial_fail _
  | some c =>
    rw [Option.some_inj]
    exact Command.isPartial_run_iff

theorem Refusal.not_isPartial_outcome (r : Refusal) : ¬ r.outcome.IsPartial :=
  fun h => h.2 (out_outcome h.1)

/-- **Calls that fail after they have written something.** Whatever the arguments, the settings file
and the environment are, a call that fails has written nothing to the standard output, unless it asks
for the settings and these can be loaded but not written. Then the call has written the line above
the settings before it fails with exit code 78. -/
theorem Outcome.isPartial_iff (s : Surroundings) (arguments : List String) :
    ((ofArguments s arguments).IsPartial ↔
      (∃ debug, Invocation.ofArguments arguments = .ok ⟨debug, some .showSettings⟩) ∧
        ∃ settings, s.settings = .ok settings ∧ maxInt64 < settings.indent.toNat) ∧
    ((ofArguments s arguments).IsPartial →
      (ofArguments s arguments).exitCode = 78 ∧ (ofArguments s arguments).out = s.settingsHeader) := by
  cases hcall : Invocation.ofArguments arguments with
  | error r =>
    have hnot : ¬ (ofArguments s arguments).IsPartial := by
      rw [ofArguments, hcall]
      exact r.not_isPartial_outcome
    refine ⟨⟨fun h => absurd h hnot, ?_⟩, fun h => absurd h hnot⟩
    rintro ⟨⟨_, h⟩, -⟩
    contradiction
  | ok i =>
    obtain ⟨debug, command⟩ := i
    rw [ofArguments_of_invocation hcall, Invocation.isPartial_outcome_iff,
      Invocation.isPartial_report_iff]
    refine ⟨by simp [Surroundings.HasUnwritable], ?_⟩
    rintro ⟨rfl, hsettings⟩
    have hreport : (⟨debug, some .showSettings⟩ : Invocation).report s = _ :=
      Command.run_showSettings_of_hasUnwritable hsettings
    rw [Invocation.exitCode_outcome, Invocation.out_outcome, hreport]
    exact ⟨rfl, rfl⟩

/-- A settings file with the largest indent that can be loaded. -/
def Surroundings.widest : Surroundings := ⟨some "indent = \"18446744073709551615\"", [], false, .silent⟩

theorem Surroundings.settings_widest : widest.settings = .ok ⟨.drawn, 18446744073709551615⟩ := by
  rw [settings, widest]
  cbv

/-- With this file the header stands alone; without a file nothing fails after it is written. -/
theorem Outcome.isPartial_iff_widest :
    (ofArguments .widest ["config", "show"]).IsPartial ∧
      ¬ (ofArguments .bare ["config", "show"]).IsPartial ∧
      ¬ (ofArguments .widest ["tree", "show", "a"]).IsPartial := by
  have hshow : Invocation.ofArguments ["config", "show"] = .ok ⟨0, some .showSettings⟩ := rfl
  have hdisplay : Invocation.ofArguments ["tree", "show", "a"]
      = .ok ⟨0, some (.display "a" none)⟩ := rfl
  refine ⟨?_, fun h => ?_, fun h => ?_⟩
  · exact (isPartial_iff .widest _).1.mpr ⟨⟨0, hshow⟩, _, Surroundings.settings_widest, by decide⟩
  · obtain ⟨-, settings, hsettings, hlt⟩ := (isPartial_iff .bare _).1.mp h
    rw [Surroundings.settings_bare] at hsettings
    cases hsettings
    exact absurd hlt (by decide)
  · obtain ⟨⟨debug, hcall⟩, -⟩ := (isPartial_iff .widest _).1.mp h
    rw [hdisplay] at hcall
    nomatch hcall

/-- The call for the settings fails with this file, and the header has been written. -/
theorem Outcome.header_written_before_failure :
    (ofArguments .widest ["config", "show"]).exitCode = 78 ∧
      (ofArguments .widest ["config", "show"]).out = "Effective settings\n" := by
  have hshow : Invocation.ofArguments ["config", "show"] = .ok ⟨0, some .showSettings⟩ := rfl
  have hreport : (⟨0, some .showSettings⟩ : Invocation).report .widest = _ :=
    Command.run_showSettings_of_hasUnwritable ⟨_, Surroundings.settings_widest, by decide⟩
  rw [ofArguments_of_invocation hshow, Invocation.exitCode_outcome, Invocation.out_outcome, hreport]
  exact ⟨rfl, rfl⟩

end TreeText
