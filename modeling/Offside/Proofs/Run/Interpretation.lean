import Offside.Proofs.Run.Keeping

/-!
# Evaluation in other terms

Evaluation puts basic steps one after the other. Now and then it gives the errors of a part a
position, and it runs the bodies of commands in another frame and one call deeper. Whatever offers
this can take the place of runs (`Interpretation`): runs themselves do, and so do runs that keep a
record of the machines they go through.

`evalIn`, `execAllIn` and `applyIn` are evaluation in an interpretation. In runs it is the
evaluation that programs are run by, which is shown where runs are compared.
-/

namespace Offside

open Run

/-- What evaluation can be done in. -/
class Interpretation (Y : Type → Type) extends Monad Y where
  /-- A basic step. -/
  step {α : Type} (x : Run α) : Y α
  located {α : Type} (p : Position) (y : Y α) : Y α
  nested {α : Type} (y : Y α) : Y α
  inFrame {α : Type} (f : FrameId) (y : Y α) : Y α

instance : Interpretation Run where
  step x := x
  located := Run.located
  nested := Run.nested
  inFrame := Run.inFrame

open Interpretation

variable {Y : Type → Type} [Interpretation Y]

/-! ## Expressions -/

def ofExceptIn {α : Type} (pos : Option Position) : Except RuntimeError.Cause α → Y α
  | .ok a => pure a
  | .error cause => step (fail cause pos)

def invokeIn (call : Command → List Value → Y Value) (n : Name) (v : Value) (args : List Value) :
    Y Value :=
  match v with
  | .command _ c =>
    if c.arity.accepts args.length then located n.pos (call c args)
    else step (fail (.arityMismatch c.arity args.length) (some n.pos))
  | v => step (fail (.notCallable v.type) (some n.pos))

mutual

def evalIn (call : Command → List Value → Y Value) : Expr → Y Value
  | .literal l => return .ofLiteral l
  | .name _ n => step (variableValue n)
  | .group inner => evalIn call inner
  | .unary op p right => do
    let v ← evalIn call right
    ofExceptIn (some p) (op.apply v)
  | .binary left op p right => do
    let a ← evalIn call left
    let b ← evalIn call right
    ofExceptIn (some p) (op.apply a b)
  | .comparison first links => evalChainIn call (evalIn call first) links
  | .ternary condition left right => do
    let c ← evalIn call condition
    if c.isTruthy then evalIn call left else evalIn call right
  | .call n args => do
    let v ← step (callee n)
    let vs ← evalAllIn call args
    invokeIn call n v vs

def evalChainIn (call : Command → List Value → Y Value) (left : Y Value) :
    List (Link Expr) → Y Value
  | [] => return .boolean true
  | ⟨op, p, right⟩ :: rest => do
    let a ← left
    let b ← evalIn call right
    let v ← ofExceptIn (some p) (op.apply a b)
    if v.isTruthy then evalChainIn call (evalIn call right) rest else return .boolean false

def evalAllIn (call : Command → List Value → Y Value) : List Expr → Y (List Value)
  | [] => return []
  | e :: es => do
    let v ← evalIn call e
    let vs ← evalAllIn call es
    return v :: vs

end

/-! ## Statements -/

/-- Goes on with `rest` unless the command has returned. -/
def Flow.followedByIn (rest : Y Flow) : Flow → Y Flow
  | .normal => rest
  | .returned v => pure (.returned v)

def iterateIn (test : Y Value) (body : Y Flow) : Nat → Y Flow
  | 0 => step exhaust
  | n + 1 => do
    let v ← test
    if v.isTruthy then body >>= Flow.followedByIn (iterateIn test body n) else return .normal

mutual

/-- Runs a statement. A command is made and declared in one step. -/
def execIn (call : Command → List Value → Y Value) (fuel : Nat) : Stmt → Y Flow
  | .init n e => do
    let v ← evalIn call e
    step (declare n v)
    return .normal
  | .set n e => do
    let v ← evalIn call e
    step (assign n v)
    return .normal
  | .condition test thenBody none => do
    let v ← evalIn call test
    if v.isTruthy then execAllIn call fuel thenBody else return .normal
  | .condition test thenBody (some elseBody) => do
    let v ← evalIn call test
    if v.isTruthy then execAllIn call fuel thenBody else execAllIn call fuel elseBody
  | .loop test body => iterateIn (evalIn call test) (execAllIn call fuel body) fuel
  | .definition n params body => do
    step (closure ⟨n, params, body⟩ >>= declare n)
    return .normal
  | .ret _ none => return .returned .none
  | .ret _ (some e) => do
    let v ← evalIn call e
    return .returned v
  | .expression e => do
    let _ ← evalIn call e
    return .normal
  | .body stmts => execAllIn call fuel stmts
  | .pass => return .normal

def execAllIn (call : Command → List Value → Y Value) (fuel : Nat) : List Stmt → Y Flow
  | [] => return .normal
  | s :: rest => execIn call fuel s >>= Flow.followedByIn (execAllIn call fuel rest)

end

/-! ## Commands -/

def bindParamsIn (f : FrameId) : List Name → List Value → Y Unit
  | n :: ns, v :: vs => do
    step (declareIn f n v)
    bindParamsIn f ns vs
  | _, _ => return ()

def enterIn (d : Definition) (home : FrameId) (args : List Value) (body : Y Flow) : Y Value := do
  let f ← step (openFrame home)
  bindParamsIn f d.params args
  let flow ← nested (inFrame f body)
  return flow.value

/-- Runs a command. A built-in one is a single step. -/
def applyIn : Nat → Command → List Value → Y Value
  | _, .native n, args => step (n.run args)
  | 0, .defined _ _, _ => step exhaust
  | fuel + 1, .defined d home, args =>
    enterIn d home args (execAllIn (applyIn fuel) fuel d.body)

end Offside
