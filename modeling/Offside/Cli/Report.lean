import Offside.Syntax.Printer
import Offside.Session
import Offside.Cli.Arguments

/-!
# What the command line tool does with files

Each file is handled on its own, in the order given, and a failure does not stop the others. What
is said about files goes to standard error, with the path in front of each line; standard output
has what programs print, and the trees and tokens asked for.
-/

namespace Offside.Cli

/-! ## Reports -/

/-- What the tool writes, and whether all went well. -/
structure Report where
  stdout : ByteArray
  stderr : String
  failed : Bool

namespace Report

def empty : Report := ⟨.empty, "", false⟩

def append (a b : Report) : Report :=
  ⟨a.stdout ++ b.stdout, a.stderr ++ b.stderr, a.failed || b.failed⟩

instance : Append Report := ⟨append⟩

def output (text : String) : Report := ⟨text.toUTF8, "", false⟩

def exitCode (r : Report) : Nat := if r.failed then 1 else 0

end Report

/-! ## Files -/

/-- Why a file cannot be read. -/
inductive ReadError
  | notFound
  | isDirectory
  | notDirectory
  | nameTooLong
  /-- The file is there, but is not UTF-8. -/
  | notText
  | other (message : String)
deriving DecidableEq, Repr

def ReadError.message : ReadError → String
  | notFound => "No such file or directory (os error 2)"
  | isDirectory => "Is a directory (os error 21)"
  | notDirectory => "Not a directory (os error 20)"
  | nameTooLong => "File name too long (os error 36)"
  | notText => "stream did not contain valid UTF-8"
  | other message => message

def decode (bytes : ByteArray) : Except ReadError String :=
  match String.fromUTF8? bytes with
  | some s => .ok s
  | none => .error .notText

/-- A file that the tool is asked to handle. -/
structure File where
  path : String
  content : Except ReadError String

/-! ## Handling a file -/

/-- A line without the carriage return that it may end with. -/
def withoutReturn (line : String) : String :=
  if line.toList.getLast? = some '\r' then .ofList line.toList.dropLast else line

/-- The lines of a message. A line ends at a line feed, and a carriage return before it is dropped
with it; the last line need not be ended. -/
def lines (message : String) : List String :=
  let parts := message.splitToList (· == '\n')
  parts.dropLast.map withoutReturn ++ parts.getLast?.toList.filter (!·.isEmpty)

/-- A message about a file: each of its lines behind the path. -/
def complaint (path message : String) : String :=
  String.join ((lines message).map fun l => path ++ ": " ++ l ++ "\n")

def failure (path message : String) : Report := ⟨.empty, complaint path message, true⟩

def runReport (path source : String) (fuel limit : Nat) (readings : Nat → Float) : Report :=
  match Session.run fuel source (.standard limit .unlimited readings) with
  | (.ok (), m) => ⟨m.sink.written, "", false⟩
  | (.failure f, m) => ⟨m.sink.written, complaint path f.message, true⟩
  | (.exhausted, m) => ⟨m.sink.written, complaint path "the program did not end", true⟩

/-- What is reported on the text of a file. -/
def sourceReport (mode : Mode) (path source : String) (fuel limit : Nat)
    (readings : Nat → Float) : Report :=
  match mode with
  | .run => runReport path source fuel limit readings
  | .check =>
    match parseSource source with
    | .ok program =>
      ⟨.empty, path ++ ": valid (" ++ toString program.length ++ " statement(s))\n", false⟩
    | .error f => failure path f.message
  | .ast =>
    match parseSource source with
    | .ok program => .output program.print
    | .error f => failure path f.message
  | .tokens =>
    match tokenize source with
    | .ok tokens => .output (String.join (tokens.map fun t => t.listing ++ "\n"))
    | .error faults => failure path (Failure.lexical faults).message

def fileReport (mode : Mode) (file : File) (fuel limit : Nat) (readings : Nat → Float) : Report :=
  match file.content with
  | .error e => ⟨.empty, file.path ++ ": " ++ e.message ++ "\n", true⟩
  | .ok source => sourceReport mode file.path source fuel limit readings

def filesReport (mode : Mode) (files : List File) (fuel limit : Nat)
    (readings : Nat → Float) : Report :=
  files.foldl (fun r file => r ++ fileReport mode file fuel limit readings) .empty

/-! ## Carrying out a command line -/

/-- What the tool writes, and its exit code. -/
structure Answer where
  exitCode : Nat
  stdout : ByteArray
  stderr : String

def noFiles : String := "Error: no files specified\n"

def perform (mode : Mode) (files : List File) (fuel limit : Nat) (readings : Nat → Float) :
    Answer :=
  if files.isEmpty then ⟨2, .empty, noFiles⟩
  else
    let r := filesReport mode files fuel limit readings
    ⟨r.exitCode, r.stdout, r.stderr⟩

/-- The answer to a command line that is not carried out. -/
def refuse : Refusal → Answer
  | .usage => ⟨2, .empty, usageText⟩
  | .help topic => ⟨0, topic.text.toUTF8, ""⟩
  | .version => ⟨0, versionText.toUTF8, ""⟩

end Offside.Cli
