import Offside.Position

/-!
# Syntax trees

A program is a list of statements. Nodes that can fail when they are run carry the position that
the failure is reported at: names their own, operators that of the operator.
-/

namespace Offside

/-! ## Names and literals -/

/-- A name as it stands in a program. -/
structure Name where
  text : String
  pos : Position
deriving DecidableEq, Repr

/-- The two kinds of names, told apart by their case. -/
inductive NameKind
  | variable
  | command
deriving DecidableEq, Repr

/-- A value written out in a program. -/
inductive Literal
  | number (x : Float)
  | text (s : String)
  | boolean (b : Bool)
  | none
deriving DecidableEq

/-! ## Operators -/

/-- An operator between two operands. -/
inductive BinaryOp
  | add | subtract | multiply | divide | floorDivide | modulo | power
  | shiftLeft | shiftRight | bitAnd | bitOr | bitXor
  | and | or
  | equal | notEqual | less | lessEqual | greater | greaterEqual
  | is | isNot | within | notWithin
deriving DecidableEq, Repr

namespace BinaryOp

def all : List BinaryOp :=
  [add, subtract, multiply, divide, floorDivide, modulo, power, shiftLeft, shiftRight, bitAnd,
    bitOr, bitXor, and, or, equal, notEqual, less, lessEqual, greater, greaterEqual, is, isNot,
    within, notWithin]

/-- The spelling in a program; two of them are made of two words. -/
def text : BinaryOp → String
  | add => "+"
  | subtract => "-"
  | multiply => "*"
  | divide => "/"
  | floorDivide => "//"
  | modulo => "%"
  | power => "**"
  | shiftLeft => "<<"
  | shiftRight => ">>"
  | bitAnd => "&"
  | bitOr => "|"
  | bitXor => "^"
  | and => "and"
  | or => "or"
  | equal => "=="
  | notEqual => "!="
  | less => "<"
  | lessEqual => "<="
  | greater => ">"
  | greaterEqual => ">="
  | is => "is"
  | isNot => "is not"
  | within => "in"
  | notWithin => "not in"

def ofText? (s : String) : Option BinaryOp := all.find? (·.text == s)

end BinaryOp

/-- An operator in front of its operand. -/
inductive UnaryOp
  | not | negate | plus | bitNot
deriving DecidableEq, Repr

namespace UnaryOp

def all : List UnaryOp := [not, negate, plus, bitNot]

/-- The spelling in a program. -/
def text : UnaryOp → String
  | not => "not"
  | negate => "-"
  | plus => "+"
  | bitNot => "~"

def ofText? (s : String) : Option UnaryOp := all.find? (·.text == s)

end UnaryOp

/-! ## Trees -/

/-- One comparison of a chain, without the operand on its left, which the chain already has. -/
structure Link (α : Type) where
  op : BinaryOp
  pos : Position
  right : α
deriving DecidableEq

inductive Expr
  | literal (value : Literal)
  | name (kind : NameKind) (name : Name)
  /-- Parentheses. -/
  | group (inner : Expr)
  | unary (op : UnaryOp) (pos : Position) (right : Expr)
  | binary (left : Expr) (op : BinaryOp) (pos : Position) (right : Expr)
  /-- A chain such as `a < b <= c`: each operand is compared with the next. -/
  | comparison (first : Expr) (links : List (Link Expr))
  /-- The expression `left if condition else right`. -/
  | ternary (condition left right : Expr)
  | call (name : Name) (arguments : List Expr)

inductive Stmt
  /-- Declares a variable. -/
  | init (name : Name) (value : Expr)
  /-- Gives a declared variable a new value. -/
  | set (name : Name) (value : Expr)
  | condition (test : Expr) (thenBody : List Stmt) (elseBody : Option (List Stmt))
  | loop (test : Expr) (body : List Stmt)
  /-- Declares a command. -/
  | definition (name : Name) (params : List Name) (body : List Stmt)
  /-- Ends the command that is running, with a value or with `none`. -/
  | ret (pos : Position) (value : Option Expr)
  | expression (e : Expr)
  /-- Statements taken as one. No source text is read as this. -/
  | body (statements : List Stmt)
  | pass

abbrev Program := List Stmt

end Offside
