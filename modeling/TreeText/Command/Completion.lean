import TreeText.Command.Basic

/-!
# Completions for shells

A completion script tells a shell which names can follow the name of the program. The scripts of the
program are generated from its table of commands and are much longer. Those here are this library's
own: they name the commands at the top and no more, and nothing is proved about their texts.
-/

namespace TreeText

/-- The names at the top, as the scripts of this library list them. -/
def topNames : String := "tree expr config completion help"

/-- A completion script of this library's own, which stands for the one that is generated. -/
def Shell.script : Shell → String
  | bash => "complete -W \"" ++ topNames ++ "\" " ++ programName ++ "\n"
  | elvish =>
    "set edit:completion:arg-completer[" ++ programName ++ "] = \x7b|@words| put "
      ++ topNames ++ " \x7d\n"
  | fish => "complete -c " ++ programName ++ " -f -a \"" ++ topNames ++ "\"\n"
  | powershell =>
    "Register-ArgumentCompleter -Native -CommandName " ++ programName
      ++ " -ScriptBlock \x7b -split \"" ++ topNames ++ "\" \x7d\n"
  | zsh => "#compdef " ++ programName ++ "\n_arguments \"1:command:(" ++ topNames ++ ")\"\n"

end TreeText
