import Offside.Run.Machine
import Offside.Value.Operator

/-!
# Running programs

Expressions and statements are run by recursion on their structure. A call leaves the structure: it
goes on with the body of whatever command its name is bound to at that moment. So evaluation is
given a *handler* that runs commands, and `apply` ties the knot: it is the handler that runs a
declared command by its body, with itself for the calls in it.

Loops and calls need not end, so a run is granted *fuel*: a bound on how deep calls are nested and
on how often each loop goes round. A run that needs more is `exhausted`; one that does not has the
same outcome with any more fuel.
-/

namespace Offside

open Run

/-! ## Built-in commands -/

def writeSome : Option String → Run Unit
  | some text => write text
  | none => return ()

/-- What a command of the host comes to, given its arguments. -/
def HostResult.run (args : List Value) : HostResult → Run Value
  | value l => return .ofLiteral l
  | argument i => return args.getD i .none
  | failure e => fail e.cause e.pos

/-- Runs a built-in command. The number of arguments has been checked. -/
def Native.run (n : Native) (args : List Value) : Run Value :=
  match n with
  | print => do
    write (" ".intercalate (args.map Value.display) ++ "\n")
    return .none
  | clear => do
    write "\x1b[H\x1b[2J\n"
    flush
    return .none
  | clock => return .number (← readClock)
  | host c => do
    writeSome (c.output (args.map Value.seen))
    (c.result (args.map Value.seen)).run args

/-! ## Expressions -/

/-- What runs a command with arguments. -/
abbrev Handler := Command → List Value → Run Value

/-- The value that a command name is bound to. A name bound to `none` counts as not bound. -/
def callee (n : Name) : Run Value := do
  match ← lookup? n.text with
  | some .none | none => fail (.commandNotFound n.text) (some n.pos)
  | some v => return v

/-- Calls what a name was bound to. -/
def invoke (call : Handler) (n : Name) (v : Value) (args : List Value) : Run Value :=
  match v with
  | .command _ c =>
    if c.arity.accepts args.length then located n.pos (call c args)
    else fail (.arityMismatch c.arity args.length) (some n.pos)
  | v => fail (.notCallable v.type) (some n.pos)

def variableValue (n : Name) : Run Value := do
  match ← lookup? n.text with
  | some v => return v
  | none => fail (.undefinedVariable n.text) (some n.pos)

mutual

/-- Evaluates an expression. Both operands of an operator are always evaluated, also of `and` and
`or`. A call looks up its name before its arguments are evaluated. -/
def eval (call : Handler) : Expr → Run Value
  | .literal l => return .ofLiteral l
  | .name _ n => variableValue n
  | .group inner => eval call inner
  | .unary op p right => do
    let v ← eval call right
    ofExcept (some p) (op.apply v)
  | .binary left op p right => do
    let a ← eval call left
    let b ← eval call right
    ofExcept (some p) (op.apply a b)
  | .comparison first links => evalChain call (eval call first) links
  | .ternary condition left right => do
    let c ← eval call condition
    if c.isTruthy then eval call left else eval call right
  | .call n args => do
    let v ← callee n
    let vs ← evalAll call args
    invoke call n v vs

/-- Evaluates the comparisons of a chain until one does not hold. Each evaluates both its operands,
so an operand in the middle is evaluated twice; `left` evaluates the operand in front. -/
def evalChain (call : Handler) (left : Run Value) : List (Link Expr) → Run Value
  | [] => return .boolean true
  | ⟨op, p, right⟩ :: rest => do
    let a ← left
    let b ← eval call right
    let v ← ofExcept (some p) (op.apply a b)
    if v.isTruthy then evalChain call (eval call right) rest else return .boolean false

def evalAll (call : Handler) : List Expr → Run (List Value)
  | [] => return []
  | e :: es => do
    let v ← eval call e
    let vs ← evalAll call es
    return v :: vs

end

/-! ## Statements -/

/-- How a statement ends: the next one follows, or the command that is running returns. -/
inductive Flow
  | normal
  | returned (v : Value)

/-- Runs `body` as long as `test` holds, at most `n` times. -/
def iterate (test : Run Value) (body : Run Flow) (n : Nat) (m : Machine) : Outcome Flow :=
  match n with
  | 0 => .exhausted
  | n + 1 =>
    match test m with
    | .failed e m' => .failed e m'
    | .exhausted => .exhausted
    | .done v m' =>
      if v.isTruthy then
        match body m' with
        | .done .normal m'' => iterate test body n m''
        | r => r
      else .done .normal m'

mutual

/-- Runs a statement. The bodies of conditions and loops run in the current frame. -/
def exec (call : Handler) (fuel : Nat) : Stmt → Run Flow
  | .init n e => do
    let v ← eval call e
    declare n v
    return .normal
  | .set n e => do
    let v ← eval call e
    assign n v
    return .normal
  | .condition test thenBody none => do
    let v ← eval call test
    if v.isTruthy then execAll call fuel thenBody else return .normal
  | .condition test thenBody (some elseBody) => do
    let v ← eval call test
    if v.isTruthy then execAll call fuel thenBody else execAll call fuel elseBody
  | .loop test body => iterate (eval call test) (execAll call fuel body) fuel
  | .definition n params body => do
    let v ← closure ⟨n, params, body⟩
    declare n v
    return .normal
  | .ret _ none => return .returned .none
  | .ret _ (some e) => do
    let v ← eval call e
    return .returned v
  | .expression e => do
    let _ ← eval call e
    return .normal
  | .body stmts => execAll call fuel stmts
  | .pass => return .normal

/-- Runs statements one after the other, until one returns. -/
def execAll (call : Handler) (fuel : Nat) : List Stmt → Run Flow
  | [] => return .normal
  | s :: rest => fun m =>
    match exec call fuel s m with
    | .done .normal m' => execAll call fuel rest m'
    | r => r

end

/-! ## Commands -/

/-- The value of a call whose body ended this way. -/
def Flow.value : Flow → Value
  | normal => .none
  | returned v => v

/-- Runs a declared command: its parameters are bound in a new frame enclosed by the one it was
declared in, and its body runs in that frame, one call deeper. -/
def enter (d : Definition) (home : FrameId) (args : List Value) (body : Run Flow) : Run Value := do
  let f ← openFrame home
  bindParams f d.params args
  let flow ← nested (inFrame f body)
  return flow.value

def apply : Nat → Handler
  | 0, c, args =>
    match c with
    | .native n => n.run args
    | .defined _ _ => exhaust
  | fuel + 1, c, args =>
    match c with
    | .native n => n.run args
    | .defined d home => enter d home args (execAll (apply fuel) fuel d.body)

/-! ## Programs -/

def evaluate (fuel : Nat) (e : Expr) : Run Value := eval (apply fuel) e

/-- Runs statements in a frame. -/
def runBlock (fuel : Nat) (f : FrameId) (stmts : List Stmt) : Run Flow :=
  inFrame f (execAll (apply fuel) fuel stmts)

/-- Runs a program in the current frame and flushes its output. A `RETURN` outside of commands ends
the program. If flushing fails, that is the error of the run, whatever happened before. -/
def interpret (fuel : Nat) (program : Program) : Run Unit := fun m =>
  match execAll (apply fuel) fuel program m with
  | .done _ m' => flush m'
  | .failed e m' =>
    match flush m' with
    | .done _ m'' => .failed e m''
    | r => r
  | .exhausted => .exhausted

end Offside
