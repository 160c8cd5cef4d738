import Offside.Syntax.Basic
import Offside.Value.Kind

/-!
# Errors of a running program

The first error ends a run. Its position is known where a token of the program is to blame; errors
that come from elsewhere get the position of the nearest call around them.
-/

namespace Offside

/-- What the place that output goes to says when it fails. -/
structure SinkError where
  message : String
deriving DecidableEq, Repr

namespace RuntimeError

/-- The operands that a binary operator works on. -/
inductive Operands
  | numbers | texts | numbersOrTexts
deriving DecidableEq, Repr

def Operands.text : Operands → String
  | numbers => "two numbers"
  | texts => "two texts"
  | numbersOrTexts => "two numbers or two texts"

/-- Why a run ends early. -/
inductive Cause
  | undefinedVariable (name : String)
  | alreadyDefined (name : String)
  | commandNotFound (name : String)
  /-- A call of something that is no command. -/
  | notCallable (type : ValueType)
  | arityMismatch (expected : Arity) (found : Nat)
  | invalidOperands (op : BinaryOp) (expected : Operands)
  /-- A sign in front of something that is no number. -/
  | invalidOperand (op : UnaryOp)
  | recursionLimit (limit : Nat)
  | output (e : SinkError)
deriving DecidableEq, Repr

def Cause.message : Cause → String
  | undefinedVariable name => "undefined variable '" ++ name ++ "'"
  | alreadyDefined name => "'" ++ name ++ "' already defined"
  | commandNotFound name => "command '" ++ name ++ "' not found"
  | notCallable type => "can only call commands, found " ++ type.name
  | arityMismatch expected found =>
    "expected " ++ expected.text ++ " arguments but got " ++ toString found
  | invalidOperands op expected => "operands of '" ++ op.text ++ "' must be " ++ expected.text
  | invalidOperand op => "operand of '" ++ op.text ++ "' must be a number"
  | recursionLimit limit => "maximum call depth of " ++ toString limit ++ " exceeded"
  | output e => "failed to write output: " ++ e.message

end RuntimeError

/-- An error of a running program, and where it is, if that is known. -/
structure RuntimeError where
  cause : RuntimeError.Cause
  pos : Option Position
deriving DecidableEq, Repr

namespace RuntimeError

/-- Gives an error a position, unless it has one. -/
def within (e : RuntimeError) (p : Position) : RuntimeError := ⟨e.cause, e.pos <|> some p⟩

def message (e : RuntimeError) : String :=
  match e.pos with
  | some p => p.locate e.cause.message
  | none => e.cause.message

end RuntimeError

end Offside
