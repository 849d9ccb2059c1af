import TreeText.Command.Arguments

/-!
# Help and refusals

What a caller reads who asks for help or for the version, or whose call is refused. Only the line with
the version is a text of the program. Its help and its refusals are composed by its command-line
parser, and the texts for them here are short ones of this library's own: they say the same in other
words, and nothing is proved about them but where they go.
-/

namespace TreeText

/-- A help text of this library's own, which stands for the one that the parser composes. -/
def helpText : String :=
  "Ordered n-ary trees in canonical text form, and prefix arithmetic on top of them\n\n"
    ++ "Usage: " ++ programName ++ " [OPTIONS] [COMMAND]\n\n"
    ++ "Commands:\n"
    ++ "  tree normalize <TEXT>              Print the canonical one-line form\n"
    ++ "  tree show [--style STYLE] <TEXT>   Print the tree one node per line\n"
    ++ "  tree equal <LEFT> <RIGHT>          Compare two trees structurally\n"
    ++ "  expr eval <EXPRESSION>             Evaluate to an integer\n"
    ++ "  expr infix <EXPRESSION>            Render as fully parenthesized infix\n"
    ++ "  config show                        Show merged config\n"
    ++ "  config path                        Show config paths\n"
    ++ "  completion <SHELL>                 Generate shell completions\n"
    ++ "  help                               Print this message\n\n"
    ++ "Options:\n"
    ++ "  -d, --debug     Increase log verbosity (-d info, -dd debug, -ddd trace)\n"
    ++ "  -h, --help      Print help\n"
    ++ "  -V, --version   Print version\n"

/-- What is wrong with a refused call, in this library's own words. -/
def Refusal.reason : Refusal → String
  | help | version _ | helpForMissing => ""
  | missingSubcommand => "a subcommand is required but one was not provided"
  | invalidSubcommand => "unrecognized subcommand"
  | missingOperand => "a required argument was not provided"
  | unknownArgument => "unexpected argument found"
  | invalidValue => "invalid value for an argument"
  | repeatedOption => "an option cannot be used multiple times"
  | unwantedValue => "unexpected value for an option"

/-- What is told about a refused call. The line with the version is the program's; the other texts are
this library's own. -/
def Refusal.text : Refusal → String
  | help | helpForMissing => helpText
  | version names => "-".intercalate names ++ " " ++ programVersion ++ "\n"
  | r => "error: " ++ r.reason ++ "\n\nFor more information, try --help.\n"

end TreeText
