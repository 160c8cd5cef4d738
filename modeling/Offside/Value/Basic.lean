import Offside.Double.Decimal
import Offside.Run.Error

/-!
# Values

What expressions evaluate to: numbers, texts, truth values, `none`, and commands. A command is
built in or declared by a program; a declared one remembers the frame it was declared in.

Commands are compared by identity: two values are the same command only if one was copied from the
other. Each command value carries a number that is given out once.
-/

namespace Offside

/-! ## Commands -/

/-- What a command of the host sees of an argument. -/
structure Sight where
  type : ValueType
  text : String

/-- What a command of the host comes to. -/
inductive HostResult
  | value (l : Literal)
  /-- The argument of this number, or `none` if there are not so many. -/
  | argument (i : Nat)
  | failure (e : RuntimeError)

/-- A command that the program around the interpreter adds. It sees the types and the texts of its
arguments; it may write a text, and then comes to a result. -/
structure HostCommand where
  name : String
  arity : Arity
  output : List Sight → Option String
  result : List Sight → HostResult

/-- A built-in command. `PRINT`, `CLEAR` and `CLOCK` are always there. -/
inductive Native
  | print | clear | clock
  | host (c : HostCommand)

namespace Native

/-- The built-in commands of every program, in the order they are listed. -/
def standard : List Native := [print, clear, clock]

/-- The name that programs call a built-in command by. -/
def name : Native → String
  | print => "PRINT"
  | clear => "CLEAR"
  | clock => "CLOCK"
  | host c => c.name

def arity : Native → Arity
  | print => .any
  | clear | clock => .exactly 0
  | host c => c.arity

end Native

/-- A declared command: its name, its parameters and its body. -/
structure Definition where
  name : Name
  params : List Name
  body : List Stmt

abbrev FrameId := Nat

/-- What a command does when it is called. -/
inductive Command
  /-- A declared command and the frame it was declared in. -/
  | defined (d : Definition) (home : FrameId)
  | native (n : Native)

namespace Command

def arity : Command → Arity
  | defined d _ => .exactly d.params.length
  | native n => n.arity

def text : Command → String
  | defined d _ => "<DEF " ++ d.name.text ++ ">"
  | native _ => "<native command>"

end Command

/-! ## Values -/

inductive Value
  | number (x : Float)
  | text (s : String)
  | boolean (b : Bool)
  | none
  | command (identity : Nat) (c : Command)

namespace Value

def type : Value → ValueType
  | number _ => .number
  | text _ => .text
  | boolean _ => .boolean
  | none => .none
  | command _ _ => .command

/-- Only `false` and `none` count as false. -/
def isTruthy : Value → Bool
  | none => false
  | boolean b => b
  | _ => true

/-- Values of different types differ; NaN differs from itself, and the two zeros are equal. -/
def equal : Value → Value → Bool
  | number a, number b => a == b
  | text a, text b => a == b
  | boolean a, boolean b => a == b
  | none, none => true
  | command i _, command j _ => i == j
  | _, _ => false

/-- The text of a value, as programs print it. -/
def display : Value → String
  | number x => Double.render Double.printed x
  | text s => s
  | boolean true => "true"
  | boolean false => "false"
  | none => "none"
  | command _ c => c.text

/-- What a command of the host sees of a value. -/
def seen (v : Value) : Sight := ⟨v.type, v.display⟩

def ofLiteral : Literal → Value
  | .number x => number x
  | .text s => text s
  | .boolean b => boolean b
  | .none => none

end Value

end Offside
