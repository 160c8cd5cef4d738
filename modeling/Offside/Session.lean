import Offside.Source.Scan
import Offside.Grammar.Statement
import Offside.Run.Eval
import Offside.Value.Host

/-!
# Sessions

A session is a machine that programs are run on, one after the other: what one declares, the next
can use. Nothing of a program is run unless all of it can be read.

* `Machine.launch`: a fresh session.
* `Session.run`, `Session.eval`, `Session.block`: what a session can be asked to do with a source
  text.
-/

namespace Offside

/-! ## Failures -/

/-- What a source text can fail with: in its tokens, in its grammar, or when it is run. -/
inductive Failure
  | lexical (faults : List Fault)
  | syntactic (errors : List SyntaxError)
  | runtime (e : RuntimeError)

/-- The wording of a failure. All errors of a source text are reported, one to a line. -/
def Failure.message : Failure → String
  | lexical faults => "\n".intercalate (faults.map Fault.message)
  | syntactic errors => "\n".intercalate (errors.map SyntaxError.message)
  | runtime e => e.message

/-- The program that a source text is. -/
def parseSource (source : String) : Except Failure Program :=
  match tokenize source with
  | .error faults => .error (.lexical faults)
  | .ok tokens =>
    match parse tokens with
    | .error errors => .error (.syntactic errors)
    | .ok program => .ok program

/-! ## Fresh machines -/

/-- Bindings for built-in commands; their values are numbered from `start` on. -/
def nativeBindings (start : Nat) : List Native → List (String × Value)
  | [] => []
  | n :: ns => (n.name, .command start (.native n)) :: nativeBindings (start + 1) ns

/-- A machine whose only frame has these bindings. -/
def Machine.launch (bindings : List (String × Value)) (nextIdentity limit : Nat) (sink : Sink)
    (readings : Nat → Float) : Machine where
  store := Store.empty.push (Frame.ofList bindings)
  current := 0
  depth := 0
  limit := limit
  sink := sink
  nextIdentity := nextIdentity
  readings := readings
  readCount := 0

def Machine.standard (limit : Nat) (sink : Sink) (readings : Nat → Float) : Machine :=
  .launch (nativeBindings 0 Native.standard) Native.standard.length limit sink readings

def Machine.debug (m : Machine) : String :=
  "Interpreter \x7b config: RuntimeConfig \x7b max_call_depth: " ++ toString m.limit ++
    " \x7d, call_depth: " ++ toString m.depth ++ ", .. \x7d"

def Definition.debug (d : Definition) : String :=
  "Function \x7b name: \"" ++ d.name.text ++ "\", params: " ++ toString d.params.length ++
    ", .. \x7d"

/-! ## Steps of a session -/

namespace Session

/-- More fuel than any run uses up in practice. -/
def plenty : Nat := 1 <<< 62

/-- How a step of a session ends. -/
inductive Verdict (α : Type)
  | ok (value : α)
  | failure (f : Failure)
  | exhausted

/-- A step of a session: its end, and the machine after it. -/
abbrev Step (α : Type) := Machine → Verdict α × Machine

/-- A run as a step. A run that does not end leaves the machine as it was. -/
def ofRun {α : Type} (x : Run α) : Step α := fun m =>
  match x m with
  | .done a m' => (.ok a, m')
  | .failed e m' => (.failure (.runtime e), m')
  | .exhausted => (.exhausted, m)

/-- Reads a source text and goes on with the program. -/
def withProgram {α : Type} (source : String) (f : Program → Step α) : Step α := fun m =>
  match parseSource source with
  | .error e => (.failure e, m)
  | .ok program => f program m

def run (fuel : Nat) (source : String) : Step Unit :=
  withProgram source fun program => ofRun (interpret fuel program)

/-- Runs a source text as the single statement that holds all of it. -/
def runBody (fuel : Nat) (source : String) : Step Unit :=
  withProgram source fun program => ofRun (interpret fuel [.body program])

/-- The expression that a program begins with. -/
def firstExpression? : Program → Option Expr
  | .expression e :: _ => some e
  | _ => none

/-- Evaluates the expression that a source text begins with; `none` if it begins with something
else. -/
def eval (fuel : Nat) (source : String) : Step (Option Value) :=
  withProgram source fun program =>
    match firstExpression? program with
    | none => fun m => (.ok none, m)
    | some e => ofRun (some <$> evaluate fuel e)

/-- Runs a source text in a new frame enclosed by the current one. -/
def block (fuel : Nat) (source : String) : Step Flow :=
  withProgram source fun program => ofRun do
    let home ← fun m => .done m.current m
    let f ← Run.openFrame home
    runBlock fuel f program

def get (name : String) (m : Machine) : Option Value := m.store.get? m.current name

/-- A change of the frames that can fail. -/
def change (f : Store → FrameId → Except RuntimeError.Cause Store) : Step Unit := fun m =>
  match f m.store m.current with
  | .ok store => (.ok (), { m with store })
  | .error cause => (.failure (.runtime ⟨cause, none⟩), m)

def define (name : String) (v : Value) : Step Unit := change fun s f => s.define f name v

def assign (name : String) (v : Value) : Step Unit := change fun s f => s.assign f name v

end Session

end Offside
