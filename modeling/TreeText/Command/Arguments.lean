import TreeText.Command.Basic

/-!
# Reading the arguments of a call

The program has groups of commands. An argument is the name of a command or a group, an option, the
value of an option, or an operand of a command. Options start with a hyphen; behind `--` every
argument is an operand. The option `-d` may be given at each level, and the innermost level that has
it decides.

An operand, and the value of an option that is an argument of its own, are checked only when the next
argument argument has been recognised, or at the end. Until then they are pending.
-/

namespace TreeText

/-- Why a call is answered before a command runs. -/
inductive Refusal where
  /-- Help is asked for. -/
  | help
  /-- The version is asked for, of the command that `names` lead to. -/
  | version (names : List String)
  /-- A group is called without anything, and its help is given instead. -/
  | helpForMissing
  | missingSubcommand
  | invalidSubcommand
  | missingOperand
  | unknownArgument
  | invalidValue
  | repeatedOption
  | unwantedValue
  deriving DecidableEq, Repr

namespace Refusal

/-- The exit code: asking for help and for the version is no mistake. -/
def exitCode : Refusal → Nat
  | help | version _ => 0
  | _ => 2

end Refusal

/-! ## Levels -/

/-- The groups and commands, the program itself being the outermost group. -/
inductive Level where
  | program
  | tree
  | normalize
  | display
  | equal
  | expr
  | evaluate
  | render
  | config
  | settings
  | settingsPath
  | completion
  deriving DecidableEq, Repr

namespace Level

/-- The members of a group, by name. -/
def members : Level → List (String × Level)
  | program => [("tree", tree), ("expr", expr), ("config", config), ("completion", completion)]
  | tree => [("normalize", normalize), ("show", display), ("equal", equal)]
  | expr => [("eval", evaluate), ("infix", render)]
  | config => [("show", settings), ("path", settingsPath)]
  | _ => []

/-- Whether a level is a group. -/
def isGroup (l : Level) : Bool := !l.members.isEmpty

/-- How many operands a command takes. -/
def operands : Level → Nat
  | normalize | display | evaluate | render | completion => 1
  | equal => 2
  | _ => 0

/-- Whether `word` names a member of a group, or its help. -/
def isMemberName (l : Level) (word : String) : Bool :=
  l.isGroup && (word = "help" || (l.members.lookup word).isSome)

/-- Whether a value may stand as an operand. -/
def acceptsOperand (l : Level) (text : String) : Bool :=
  l ≠ completion || (Shell.ofName? text).isSome

/-- Whether `topics` lead, one below the other, from a level to another one or to its help. -/
def leadTo : Level → List String → Bool
  | _, [] => true
  | l, topic :: topics =>
    match l.members.lookup topic with
    | some member => member.leadTo topics
    | none => l.isMemberName topic && topics.isEmpty

end Level

/-- The options. -/
inductive Switch where
  | debug
  | help
  | version
  | style
  deriving DecidableEq, Repr

namespace Switch

/-- The option of a long name at a level. -/
def ofName? (l : Level) : String → Option Switch
  | "debug" => some debug
  | "help" => some help
  | "version" => some version
  | "style" => if l = .display then some style else none
  | _ => none

/-- The option of a letter at a level. -/
def ofLetter? (l : Level) : Char → Option Switch
  | 'd' => some debug
  | 'h' => some help
  | 'V' => some version
  | 's' => if l = .display then some style else none
  | _ => none

end Switch

/-! ## Reading one argument -/

/-- What has been read and not yet checked. -/
inductive Pending where
  | nothing
  | operand (text : String)
  /-- The style, with its value if that has been read. -/
  | style (value : Option String)
  deriving DecidableEq, Repr

/-- How far a call has been read. -/
structure State where
  level : Level
  /-- The names that lead to the level. -/
  names : List String
  /-- How often `-d` was given, at the innermost outer level that has it. -/
  outerDebug : Nat
  /-- How often `-d` was given at this level. -/
  debug : Nat
  /-- The checked operands, the last one first. -/
  operands : List String
  style : Option Layout
  pending : Pending
  deriving Repr

namespace State

/-- Nothing has been read. -/
def start : State := ⟨.program, [programName], 0, 0, [], none, .nothing⟩

/-- How much is to be logged. -/
def verbosity (s : State) : Nat := if s.debug = 0 then s.outerDebug else s.debug

/-- Goes on to a member of the group. -/
def enter (s : State) (name : String) (member : Level) : State :=
  ⟨member, s.names ++ [name], s.verbosity, 0, [], none, .nothing⟩

/-- Whether the next argument can be the value of an option. -/
def awaitsValue (s : State) : Bool := s.pending = .style none

/-- How many operands have been read, the pending one included. -/
def operandCount (s : State) : Nat :=
  s.operands.length + match s.pending with
    | .operand _ => 1
    | _ => 0

/-- Checks what is pending. -/
def settle (s : State) : Except Refusal State :=
  match s.pending with
  | .nothing => .ok s
  | .operand text =>
    if s.level.acceptsOperand text then
      .ok { s with operands := text :: s.operands, pending := .nothing }
    else .error .invalidValue
  | .style none => .error .invalidValue
  | .style (some value) =>
    if s.style.isSome then .error .repeatedOption
    else
      match Layout.ofName? value with
      | some l => .ok { s with style := some l, pending := .nothing }
      | none => .error .invalidValue

/-- Takes in the style with a value that stands in the same argument, which is checked at once. -/
def setStyle (s : State) (value : String) : Except Refusal State :=
  match s.settle with
  | .error r => .error r
  | .ok s => { s with pending := .style (some value) }.settle

/-- Takes in an option that has no value in the same argument. -/
def flag (s : State) : Switch → Except Refusal State
  | .debug => .ok { s with debug := min (s.debug + 1) 255 }
  | .help => .error .help
  | .version => .error (.version s.names)
  | .style => .ok { s with pending := .style none }

/-- Reads an option with a long name, perhaps with a value behind an equals sign. -/
def readLong (s : State) (name : String) (value : Option String) : Except Refusal State :=
  match Switch.ofName? s.level name, value with
  | none, _ => .error .unknownArgument
  | some .style, some v => s.setStyle v
  | some _, some _ => .error .unwantedValue
  | some switch, none =>
    match s.settle with
    | .error r => .error r
    | .ok s => s.flag switch

/-- Reads options given by letters. What follows the letter of an option with a value is its
value. -/
def readLetters (s : State) : List Char → Except Refusal State
  | [] => .ok s
  | c :: rest =>
    match Switch.ofLetter? s.level c with
    | none => .error .unknownArgument
    | some switch =>
      match switch, rest with
      | .style, '=' :: value | .style, value@(_ :: _) => s.setStyle (String.ofList value)
      | _, _ =>
        match s.settle with
        | .error r => .error r
        | .ok s =>
          match s.flag switch with
          | .error r => .error r
          | .ok s => s.readLetters rest

/-- Reads an operand; behind `--` the names of members are not names. -/
def readOperand (s : State) (trailing : Bool) (text : String) : Except Refusal State :=
  if s.operandCount < s.level.operands then
    s.settle.map fun s => { s with pending := .operand text }
  else if s.level.isGroup && !(trailing && s.level.isMemberName text) then
    .error .invalidSubcommand
  else .error .unknownArgument

/-- Reads an argument that is neither the name of a member nor `--`. -/
def readArgument (s : State) (argument : String) : Except Refusal State :=
  match argument.toList with
  | '-' :: '-' :: long =>
    let name := String.ofList (long.takeWhile (· ≠ '='))
    match long.dropWhile (· ≠ '=') with
    | [] => s.readLong name none
    | _ :: value => s.readLong name (some (String.ofList value))
  | '-' :: c :: letters => s.readLetters (c :: letters)
  | _ =>
    if s.awaitsValue then .ok { s with pending := .style (some argument) }
    else s.readOperand false argument

/-! ## Reading a call -/

/-- Reads operands only. -/
def readTrailing (s : State) : List String → Except Refusal State
  | [] => .ok s
  | text :: rest =>
    match s.readOperand true text with
    | .error r => .error r
    | .ok s => s.readTrailing rest

/-- Reads arguments to their end. -/
def read (s : State) : List String → Except Refusal State
  | [] => .ok s
  | argument :: rest =>
    if s.level.isMemberName argument && !s.awaitsValue then
      match s.level.members.lookup argument with
      | some member => (s.enter argument member).read rest
      | none => .error (if s.level.leadTo rest then .help else .invalidSubcommand)
    else if argument = "--" then s.readTrailing rest
    else
      match s.readArgument argument with
      | .error r => .error r
      | .ok s => s.read rest

/-- The command that has been read to its end. -/
def command (s : State) : Except Refusal (Option Command) :=
  match s.level, s.operands with
  | .program, _ => .ok none
  | .normalize, [text] => .ok (some (.normalize text))
  | .display, [text] => .ok (some (.display text s.style))
  | .equal, [right, left] => .ok (some (.equal left right))
  | .evaluate, [text] => .ok (some (.evaluate text))
  | .render, [text] => .ok (some (.render text))
  | .settings, _ => .ok (some .showSettings)
  | .settingsPath, _ => .ok (some .showSettingsPath)
  | .completion, [text] =>
    match Shell.ofName? text with
    | some shell => .ok (some (.completion shell))
    | none => .error .invalidValue
  | l, _ =>
    if !l.isGroup then .error .missingOperand
    else if s.debug = 0 then .error .helpForMissing
    else .error .missingSubcommand

/-- The call that has been read to its end. -/
def invocation (s : State) : Except Refusal Invocation :=
  match s.settle with
  | .error r => .error r
  | .ok s => s.command.map fun command => ⟨s.verbosity, command⟩

end State

/-- Reads the arguments of a call. -/
def Invocation.ofArguments (arguments : List String) : Except Refusal Invocation :=
  match State.start.read arguments with
  | .error r => .error r
  | .ok s => s.invocation

end TreeText
