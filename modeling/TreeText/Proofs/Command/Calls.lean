import Mathlib
import TreeText.Command.Call
import TreeText.Proofs.Command.Arguments
import TreeText.Proofs.Command.Flags

/-!
# Calls and what they compute

A call whose operands stand behind `--` has the outcome that the function of its command determines:
the result on the standard output, or the message of the error on the standard error output and the
exit code of the error. The settings count for the display of a tree only, and they are loaded before
the tree is read. Flags in front of the names change nothing but the log, which stands on the standard
error output in front of the message. What the log says is up to the logger of the surroundings; where
no flags are given, it is empty.

Results:
* `Surroundings.IsPlain.paints`: where output is not painted.
* `Invocation.outcome_of_run`: the outcome of a command, by the result that it reports.
* `Invocation.ofArguments_operands`: the call that operands behind `--` make.
* `Outcome.ofArguments_agrees`: the outcomes of the calls of all commands on trees and expressions.
-/

namespace TreeText

/-! ## Plain output -/

/-- The variables that can turn paint on or off. -/
def paintVariables : List String := ["CLICOLOR_FORCE", "CLICOLOR", "NO_COLOR"]

/-- No variable is about paint, and the output goes to no terminal. -/
structure Surroundings.IsPlain (s : Surroundings) : Prop where
  terminal : s.terminal = false
  lookup : ∀ name ∈ paintVariables, s.vars.lookup name = none

/-- Nothing is found outside the program, and no log is written. -/
def Surroundings.bare : Surroundings := ⟨none, [], false, .silent⟩

theorem Surroundings.isPlain_bare : bare.IsPlain := ⟨rfl, by decide⟩

theorem Surroundings.settings_bare : bare.settings = .ok .default := by
  rw [settings, bare]
  cbv

theorem Surroundings.IsPlain.paints {s : Surroundings} (hs : s.IsPlain) : s.paints = false := by
  have hforce := hs.lookup "CLICOLOR_FORCE" (by decide)
  simp [Surroundings.paints, TreeText.paints, hforce, hs.terminal]

theorem Surroundings.IsPlain.failureText {s : Surroundings} (hs : s.IsPlain) (f : Failure) :
    s.failureText f = "error: " ++ f.message ++ "\n" := by
  rw [Surroundings.failureText, hs.paints, paint_off]
  rfl

/-- A line with a label in front, without paint. -/
def labelledLine (label text : String) : String := label ++ ": " ++ text ++ "\n"

/-- The lines that tell a comparison, without paint. -/
def Comparison.text (c : Comparison) : String :=
  labelledLine "equal" (toString c.equal)
    ++ labelledLine "left hash" (toString c.leftHash.toNat)
    ++ labelledLine "right hash" (toString c.rightHash.toNat)

theorem Surroundings.IsPlain.comparisonText {s : Surroundings} (hs : s.IsPlain) :
    s.comparisonText = Comparison.text := by
  have hlabelled : s.labelled = labelledLine := by
    funext label text
    rw [Surroundings.labelled, hs.paints, paint_off, labelledLine]
  funext c
  rw [Surroundings.comparisonText, hlabelled]
  rfl

/-! ## Outcomes -/

/-- The outcome that the result of a function on trees determines: what `write` makes of it on the
standard output, or the error. The `log` comes first on the standard error output. -/
def Outcome.ofResult {α : Type} (log : String) (write : α → String) : Except Error α → Outcome
  | .ok a => ⟨0, write a, log⟩
  | .error e => ⟨(Failure.tree e).exitCode, "", log ++ ("error: " ++ e.message ++ "\n")⟩

theorem Invocation.outcome_of_run {s : Surroundings} (hs : s.IsPlain) {command : Command} {α : Type}
    {write : α → String} {result : Except Error α} (h : command.run s = .ofResult write result)
    (debug : Nat) :
    (⟨debug, some command⟩ : Invocation).outcome s
      = .ofResult (s.logger.text debug (some command)) write result := by
  have hreport : (⟨debug, some command⟩ : Invocation).report s = .ofResult write result := h
  rw [Invocation.outcome, hreport]
  cases result with
  | ok a => rfl
  | error e =>
    simp only [Report.ofResult, Report.fail, Outcome.ofResult, hs.failureText]
    rfl

theorem Outcome.ofArguments_of_invocation {arguments : List String} {i : Invocation}
    (h : Invocation.ofArguments arguments = .ok i) (s : Surroundings) :
    ofArguments s arguments = i.outcome s := by
  rw [ofArguments, h]

/-! ## Operands behind `--` -/

/-- The arguments that ask for a layout, if one is asked for. -/
def styleArguments : Option Layout → List String
  | none => []
  | some l => ["--style", l.name]

namespace Invocation

/-- The call of a command with operands behind `--`. -/
theorem ofArguments_operands {group name : String} {l : Level} (h : Level.named? group name = some l)
    (hlevel : l ≠ .completion) (n : Nat) (texts : List String) (hcount : texts.length ≤ l.operands) :
    ofArguments (debugFlags n ++ [group, name] ++ "--" :: texts)
      = { State.atCommand (min n 255) group name l with operands := texts.reverse }.command.map
          fun command => ⟨min n 255, command⟩ := by
  have hsettle : (State.atCommand (min n 255) group name l).settle
      = .ok (State.atCommand (min n 255) group name l) := State.settle_of_nothing rfl
  rw [ofArguments_trailing (State.read_names h n) hsettle hlevel texts
    (by simpa [State.operandCount, State.atCommand] using hcount)]
  simp [State.atCommand, State.verbosity]

/-- The call that displays a tree, perhaps in a layout that is asked for. -/
theorem ofArguments_display (n : Nat) (layout : Option Layout) (text : String) :
    ofArguments (debugFlags n ++ ["tree", "show"] ++ styleArguments layout ++ ["--", text])
      = .ok ⟨min n 255, some (.display text layout)⟩ := by
  have hnamed : Level.named? "tree" "show" = some .display := rfl
  have hlevel : Level.display ≠ .completion := by decide
  cases layout with
  | none =>
    rw [styleArguments, List.append_nil]
    exact ofArguments_operands hnamed hlevel n [text] (Nat.le_refl 1)
  | some l =>
    have hread (rest : List String) :
        State.start.read (debugFlags n ++ ["tree", "show"] ++ styleArguments (some l) ++ rest)
          = { State.atCommand (min n 255) "tree" "show" .display with
              pending := .style (some l.name) }.read rest := by
      rw [styleArguments, List.append_assoc, State.read_names hnamed]
      exact State.read_style rfl rfl l rest
    have hsettle : { State.atCommand (min n 255) "tree" "show" .display with
          pending := .style (some l.name) }.settle
        = .ok { State.atCommand (min n 255) "tree" "show" .display with style := some l } := by
      simp [State.settle, State.atCommand, Layout.ofName?_name]
    rw [ofArguments_trailing hread hsettle hlevel [text] (Nat.le_refl 1)]
    rfl

end Invocation

/-! ## Calls of commands on trees -/

theorem Outcome.ofArguments_of_run {s : Surroundings} (hs : s.IsPlain) {arguments : List String}
    {n : Nat} {command : Command} {α : Type} {write : α → String} {result : Except Error α}
    (hcall : Invocation.ofArguments arguments = .ok ⟨min n 255, some command⟩)
    (hrun : command.run s = .ofResult write result) :
    ofArguments s arguments = .ofResult (s.logger.text n (some command)) write result := by
  rw [ofArguments_of_invocation hcall, Invocation.outcome_of_run hs hrun, Logger.text_min]

/-- The call of a command whose operands stand behind `--`. -/
theorem Outcome.ofArguments_operands {s : Surroundings} (hs : s.IsPlain) {group name : String}
    {l : Level} (hnamed : Level.named? group name = some l) (hlevel : l ≠ .completion) (n : Nat)
    (texts : List String) (hcount : texts.length ≤ l.operands) {command : Command}
    (hcommand : { State.atCommand (min n 255) group name l with operands := texts.reverse }.command
      = .ok (some command))
    {α : Type} {write : α → String} {result : Except Error α}
    (hrun : command.run s = .ofResult write result) :
    ofArguments s (debugFlags n ++ [group, name] ++ "--" :: texts)
      = .ofResult (s.logger.text n (some command)) write result := by
  refine ofArguments_of_run hs ?_ hrun
  rw [Invocation.ofArguments_operands hnamed hlevel n texts hcount, hcommand]
  rfl

/-- Bad settings end the display of a tree before the tree is read. -/
theorem Command.run_display_of_settings_error {s : Surroundings} {e : SettingsError}
    (h : s.settings = .error e) (text : String) (layout : Option Layout) :
    (display text layout).run s = .fail (.settings e) := by
  rw [run, h]

theorem Command.run_display_of_settings_ok {s : Surroundings} {settings : Settings}
    (h : s.settings = .ok settings) (text : String) (layout : Option Layout) :
    (display text layout).run s
      = .ofResult id (displayText text (layout.getD settings.layout) settings.indent.toNat) := by
  rw [run, h]

/-- **Calls agree with the functions of their commands.** Where output is plain, a call of one of
the commands on trees and expressions with any operands behind `--` and any number of flags in front
has the outcome that the function of the command determines: its result, or else its error. Only the
display of a tree depends on the settings: if they cannot be loaded, the call fails with exit code 78,
whatever the text is, and otherwise they give the width of the indent, and the layout unless one is
asked for. The standard error output holds the log of the call, which is empty without flags, and
behind it the error. Flags in front of any call leave the exit code and the standard output as they
are, and so does the logger. -/
theorem Outcome.ofArguments_agrees {s : Surroundings} (hs : s.IsPlain) (n : Nat) :
    (∀ text : String,
      ofArguments s (debugFlags n ++ ["tree", "normalize"] ++ ["--", text])
        = .ofResult (s.logger.text n (some (.normalize text))) (· ++ "\n") (normalizeText text)) ∧
    (∀ left right : String,
      ofArguments s (debugFlags n ++ ["tree", "equal"] ++ ["--", left, right])
        = .ofResult (s.logger.text n (some (.equal left right))) Comparison.text
          (compareTexts left right)) ∧
    (∀ text : String,
      ofArguments s (debugFlags n ++ ["expr", "eval"] ++ ["--", text])
        = .ofResult (s.logger.text n (some (.evaluate text))) (fun v => toString v.toInt ++ "\n")
          (evaluateText text)) ∧
    (∀ text : String,
      ofArguments s (debugFlags n ++ ["expr", "infix"] ++ ["--", text])
        = .ofResult (s.logger.text n (some (.render text))) (· ++ "\n") (renderText text)) ∧
    (∀ (layout : Option Layout) (text : String),
      let o := ofArguments s (debugFlags n ++ ["tree", "show"] ++ styleArguments layout ++ ["--", text])
      let log := s.logger.text n (some (.display text layout))
      (∀ e, s.settings = .error e → o = ⟨78, "", log ++ ("error: " ++ e.message ++ "\n")⟩) ∧
      ∀ settings, s.settings = .ok settings →
        o = .ofResult log id (displayText text (layout.getD settings.layout) settings.indent.toNat)) ∧
    (∀ command : Option Command, s.logger.text 0 command = "") ∧
    ∀ (arguments : List String) (l : Logger),
      (ofArguments s (debugFlags n ++ arguments)).exitCode
          = (ofArguments { s with logger := l } arguments).exitCode ∧
        (ofArguments s (debugFlags n ++ arguments)).out
          = (ofArguments { s with logger := l } arguments).out := by
  refine ⟨fun text => ?_, fun left right => ?_, fun text => ?_, fun text => ?_,
    fun layout text => ⟨fun e he => ?_, fun settings hsettings => ?_⟩, s.logger.text_zero,
    ofArguments_debugFlags s n⟩
  · have hnamed : Level.named? "tree" "normalize" = some .normalize := rfl
    exact ofArguments_operands hs hnamed (by decide) n [text] (Nat.le_refl 1) rfl rfl
  · have hnamed : Level.named? "tree" "equal" = some .equal := rfl
    have hrun : (Command.equal left right).run s
        = .ofResult Comparison.text (compareTexts left right) := by
      rw [Command.run, hs.comparisonText]
    exact ofArguments_operands hs hnamed (by decide) n [left, right] (Nat.le_refl 2) rfl hrun
  · have hnamed : Level.named? "expr" "eval" = some .evaluate := rfl
    exact ofArguments_operands hs hnamed (by decide) n [text] (Nat.le_refl 1) rfl rfl
  · have hnamed : Level.named? "expr" "infix" = some .render := rfl
    exact ofArguments_operands hs hnamed (by decide) n [text] (Nat.le_refl 1) rfl rfl
  · have hreport : (⟨min n 255, some (.display text layout)⟩ : Invocation).report s
        = .fail (.settings e) := Command.run_display_of_settings_error he text layout
    rw [ofArguments_of_invocation (Invocation.ofArguments_display n layout text),
      Invocation.outcome, hreport]
    simp only [Report.fail, hs.failureText, Logger.text_min]
    rfl
  · exact ofArguments_of_run hs (Invocation.ofArguments_display n layout text)
      (Command.run_display_of_settings_ok hsettings text layout)

/-- Nothing is found outside the program, and the whole log is written within a microsecond. -/
def Surroundings.instant : Surroundings :=
  { bare with logger := .stamped "2026-01-01T00:00:00.000000Z " }

theorem Surroundings.isPlain_instant : instant.IsPlain := ⟨rfl, by decide⟩

/-- Texts that look like options, with a long log, with none, and with one line in front of an error;
a layout that is asked for, and settings that cannot be loaded. -/
theorem Outcome.ofArguments_agrees_examples :
    ofArguments .instant ["-d", "-d", "-d", "-d", "tree", "normalize", "--", "--help"]
      = ⟨0, "--help\n", "Don't be crazy, max is -d -d -d\n"
          ++ "2026-01-01T00:00:00.000000Z DEBUG arbor: Debug mode: trace\n"
          ++ "2026-01-01T00:00:00.000000Z DEBUG arbor: close\n"⟩ ∧
    ofArguments .instant ["expr", "eval", "--", "-(3 2)"] = ⟨0, "1\n", ""⟩ ∧
    ofArguments .instant ["-d", "expr", "eval", "--", "/ (1 0)"]
      = ⟨70, "", "2026-01-01T00:00:00.000000Z  INFO arbor: Debug mode: info\n"
          ++ "error: division by zero\n"⟩ ∧
    ofArguments .bare ["tree", "show", "--style", "indent", "--", "a (b)"] = ⟨0, "a\n b\n", ""⟩ ∧
    (ofArguments ⟨some "=", [], false, .silent⟩ ["tree", "show", "--", "a"]).exitCode = 78 := by
  obtain ⟨hnormalize, -⟩ := ofArguments_agrees Surroundings.isPlain_instant 4
  obtain ⟨-, -, hevaluate, -⟩ := ofArguments_agrees Surroundings.isPlain_instant 0
  obtain ⟨-, -, hfault, -⟩ := ofArguments_agrees Surroundings.isPlain_instant 1
  obtain ⟨-, -, -, -, hdisplay, -⟩ := ofArguments_agrees Surroundings.isPlain_bare 0
  have hplain : (⟨some "=", [], false, .silent⟩ : Surroundings).IsPlain := ⟨rfl, by decide⟩
  obtain ⟨-, -, -, -, hmalformed, -⟩ := ofArguments_agrees hplain 0
  obtain ⟨-, hindented⟩ := hdisplay (some .indented) "a (b)"
  have hdocument : Toml.document "=" = none := by cbv
  obtain ⟨reason, hsettings⟩ := Settings.load_of_malformed hdocument []
  have houtcome := (hmalformed none "a").1 (.load reason) hsettings
  refine ⟨(hnormalize "--help").trans ?_, (hevaluate "-(3 2)").trans ?_,
    (hfault "/ (1 0)").trans ?_, (hindented _ Surroundings.settings_bare).trans ?_,
    congrArg Outcome.exitCode houtcome⟩
  all_goals decide +kernel

end TreeText
