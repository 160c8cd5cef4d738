import Offside.Run.Machine

/-!
# The command line

`run`, `check`, `ast` and `tokens` take files; `--max-depth` sets the call depth limit and may stand
before or after the subcommand. Behind `--` every argument is a file. `help` takes the name of a
subcommand and nothing else.

Arguments are read from the left, and the first one that decides the matter does so: behind a
request for help or for the version nothing is looked at any more.

* `Argument.ofText`: what an argument is on its own.
* `readArguments`: what a command line asks for, or why it is not carried out.
-/

namespace Offside.Cli

/-! ## Requests and refusals -/

/-- What to do with the files. -/
inductive Mode
  | run
  | check
  | ast
  | tokens
deriving DecidableEq, Repr

namespace Mode

/-- All subcommands that take files, in the order they are listed. -/
def all : List Mode := [run, check, ast, tokens]

def name : Mode → String
  | run => "run"
  | check => "check"
  | ast => "ast"
  | tokens => "tokens"

/-- What a subcommand does, in the words of the help text. -/
def purpose : Mode → String
  | run => "Execute program(s)"
  | check => "Check program(s) for syntax errors without running them"
  | ast => "Print the syntax tree of program(s)"
  | tokens => "Print the token stream of program(s)"

def ofName? (s : String) : Option Mode := all.find? (·.name == s)

end Mode

/-- A command line that can be carried out. -/
structure Request where
  mode : Mode
  limit : Nat
  files : List String
deriving DecidableEq, Repr

/-- What help can be asked for. -/
inductive Topic
  /-- The tool as a whole. -/
  | tool
  /-- A subcommand that takes files. -/
  | mode (m : Mode)
  /-- The subcommand `help` itself. -/
  | help
deriving DecidableEq, Repr

/-- Why a command line is not carried out. -/
inductive Refusal
  /-- It is not well formed. -/
  | usage
  /-- It asks for help. -/
  | help (topic : Topic)
  /-- It asks for the version. -/
  | version
deriving DecidableEq, Repr

/-! ## Single arguments -/

/-- The subcommand that shows help. -/
def helpName : String := "help"

/-- What an argument is, wherever it stands. -/
inductive Argument
  /-- The mark behind which every argument is a file. -/
  | divider
  /-- The option that sets the limit, perhaps with its value behind an equals sign. -/
  | limit (value : Option String)
  | help
  | version
  /-- An option that there is not. -/
  | unknown
  /-- No option: a subcommand, a file, or the value of an option. A single dash is one. -/
  | word
deriving DecidableEq, Repr

namespace Argument

/-- The option of a long name; only the limit takes a value. -/
def ofLong (name : String) (value : Option String) : Argument :=
  if name = "max-depth" then limit value
  else if name = "help" ∧ value = none then help
  else if name = "version" ∧ value = none then version
  else unknown

/-- The option of one letter. Options of one letter can be written in one argument; both that there
are decide the matter, so the letters behind the first do not count. -/
def ofLetter (c : Char) : Argument :=
  if c = 'h' then help else if c = 'V' then version else unknown

/-- The text behind the first equals sign. -/
def valueOf? (option : List Char) : Option String :=
  match option.dropWhile (· != '=') with
  | [] => none
  | _ :: value => some (String.ofList value)

def ofText (text : String) : Argument :=
  match text.toList with
  | ['-', '-'] => divider
  | '-' :: '-' :: option =>
    ofLong (String.ofList (option.takeWhile (· != '='))) (valueOf? option)
  | '-' :: c :: _ => ofLetter c
  | _ => word

end Argument

/-- A limit is written in digits, perhaps behind a plus sign, and fits into 64 bits. -/
def limitOf? (value : String) : Option Nat :=
  let digits :=
    match value.toList with
    | '+' :: ds => ds
    | ds => ds
  if digits.isEmpty || !digits.all Char.isDigit then none
  else
    let n := Double.digitsValue digits
    if n < 1 <<< 64 then some n else none

/-- The limit when it is set once more; it may be set only once. -/
def setLimit (seen : Option Nat) (value : String) : Except Refusal (Option Nat) :=
  match seen, limitOf? value with
  | none, some n => .ok (some n)
  | _, _ => .error .usage

/-! ## Behind the subcommand -/

/-- Reads the arguments of a subcommand: files, and perhaps a limit. -/
def readFiles (mode : Mode) (seen : Option Nat) :
    List String → Except Refusal (Option Nat × List String)
  | [] => .ok (seen, [])
  | a :: rest =>
    match Argument.ofText a with
    | .divider => .ok (seen, rest)
    | .limit (some v) => do readFiles mode (← setLimit seen v) rest
    | .limit none =>
      match rest with
      | [] => .error .usage
      | v :: rest' => do readFiles mode (← setLimit seen v) rest'
    | .help => .error (.help (.mode mode))
    | .version => .error .usage
    | .unknown => .error .usage
    | .word => do
      let (limit, files) ← readFiles mode seen rest
      return (limit, a :: files)

def Topic.ofName? (s : String) : Option Topic :=
  if s = helpName then some .help else (Mode.ofName? s).map .mode

/-- Reads the arguments of `help`. They are names and no options: of one subcommand at most, since
no subcommand has others below it. -/
def readTopic : List String → Refusal
  | [] => .help .tool
  | [s] =>
    match Topic.ofName? s with
    | some topic => .help topic
    | none => .usage
  | _ => .usage

/-! ## In front of the subcommand -/

/-- The limit set in front of the subcommand. A value that is an argument of its own waits until the
next option, or until the arguments of the subcommand have been read. So what is wrong with it is
passed over when the subcommand asks for help. -/
structure Outer where
  seen : Option Nat
  waiting : Option String
deriving DecidableEq, Repr

/-- The limit, once the value that waits has been looked at. -/
def Outer.settle (o : Outer) : Except Refusal (Option Nat) :=
  match o.waiting with
  | none => .ok o.seen
  | some v => setLimit o.seen v

/-- Reads the arguments from the limit `o` on. A limit behind the subcommand counts more than one in
front of it. -/
def readFrom (o : Outer) : List String → Except Refusal Request
  | [] => .error .usage
  | a :: rest =>
    match Argument.ofText a with
    | .limit (some v) => do
      let seen ← o.settle
      readFrom ⟨← setLimit seen v, none⟩ rest
    | .limit none =>
      match rest with
      | [] => .error .usage
      | v :: rest' =>
        if Argument.ofText v = .word then do readFrom ⟨← o.settle, some v⟩ rest'
        else .error .usage
    | .help => do
      let _ ← o.settle
      .error (.help .tool)
    | .version => do
      let _ ← o.settle
      .error .version
    | .divider => .error .usage
    | .unknown => .error .usage
    | .word =>
      if a = helpName then .error (readTopic rest)
      else
        match Mode.ofName? a with
        | none => .error .usage
        | some mode => do
          let (inner, files) ← readFiles mode none rest
          let outer ← o.settle
          return ⟨mode, (inner <|> outer).getD defaultLimit, files⟩

def readArguments (args : List String) : Except Refusal Request := readFrom ⟨none, none⟩ args

/-! ## Help -/

def helpPurpose : String := "Print this message or the help of the given subcommand(s)"

/-- The lines on the options that every subcommand with files has. -/
def optionLines : String :=
  "Options:\n" ++
  "      --max-depth <MAX_DEPTH>  Maximum nesting of command calls before a run is aborted " ++
  "[default: " ++ toString defaultLimit ++ "]\n" ++
  "  -h, --help                   Print help\n"

def commandLine (name purpose : String) : String :=
  "  " ++ name ++ String.ofList (List.replicate (8 - name.length) ' ') ++ purpose ++ "\n"

def usageText : String := "Usage: lin [OPTIONS] <COMMAND>\n"

/-- The answer to a request for help. -/
def Topic.text : Topic → String
  | tool =>
    "Run and inspect Lin programs\n\n" ++ usageText ++ "\nCommands:\n" ++
    String.join (Mode.all.map fun m => commandLine m.name m.purpose) ++
    commandLine helpName helpPurpose ++ "\n" ++ optionLines ++
    "  -V, --version                Print version\n"
  | mode m =>
    m.purpose ++ "\n\nUsage: lin " ++ m.name ++ " [OPTIONS] [FILES]...\n\n" ++
    "Arguments:\n  [FILES]...  \n\n" ++ optionLines
  | help =>
    helpPurpose ++ "\n\nUsage: lin help [COMMAND]...\n\n" ++
    "Arguments:\n  [COMMAND]...  Print help for the subcommand(s)\n"

def versionText : String := "lin 0.1.0\n"

end Offside.Cli
