/-!
# Types and arities

What messages say about values and commands: the type of a value, and how many arguments a command
takes.
-/

namespace Offside

inductive ValueType
  | number | text | boolean | none | command
deriving DecidableEq, Repr

def ValueType.name : ValueType → String
  | number => "number"
  | text => "text"
  | boolean => "boolean"
  | none => "none"
  | command => "command"

/-- How many arguments a command takes. -/
inductive Arity
  | exactly (n : Nat)
  | any
deriving DecidableEq, Repr

namespace Arity

def accepts : Arity → Nat → Bool
  | exactly n, count => n == count
  | any, _ => true

/-- How messages name an arity. -/
def text : Arity → String
  | exactly n => toString n
  | any => "any"

end Arity

end Offside
