import Offside.Double.Word
import Offside.Value.Basic

/-!
# Operators on values

`+` joins numbers or texts, `in` looks for a text in another, comparisons for order and the bitwise
operators take numbers. `and`, `or`, `not`, `==` and `!=` take anything.
-/

namespace Offside

open RuntimeError (Cause)

def isInfix (needle : List Char) : List Char → Bool
  | [] => needle.isEmpty
  | c :: cs => needle.isPrefixOf (c :: cs) || isInfix needle cs

namespace BinaryOp

/-- An operator that takes two numbers. -/
def onNumbers (op : BinaryOp) (f : Float → Float → Value) : Value → Value → Except Cause Value
  | .number a, .number b => .ok (f a b)
  | _, _ => .error (.invalidOperands op .numbers)

def onTexts (op : BinaryOp) (f : String → String → Value) : Value → Value → Except Cause Value
  | .text a, .text b => .ok (f a b)
  | _, _ => .error (.invalidOperands op .texts)

/-- The sum of two numbers, or two texts one behind the other. -/
def sum : Value → Value → Except Cause Value
  | .number a, .number b => .ok (.number (a + b))
  | .text a, .text b => .ok (.text (a ++ b))
  | _, _ => .error (.invalidOperands .add .numbersOrTexts)

def onWords (op : BinaryOp) (f : BitVec 32 → BitVec 32 → BitVec 32) :
    Value → Value → Except Cause Value :=
  op.onNumbers fun a b => .number (Double.ofWord (f (Double.toWord a) (Double.toWord b)))

/-- A shift of a word. -/
def onShift (op : BinaryOp) (f : BitVec 32 → Nat → BitVec 32) :
    Value → Value → Except Cause Value :=
  op.onNumbers fun a b => .number (Double.ofWord (f (Double.toWord a) (Double.shiftCount b)))

def apply (op : BinaryOp) (a b : Value) : Except Cause Value :=
  match op with
  | add => sum a b
  | subtract => op.onNumbers (fun x y => .number (x - y)) a b
  | multiply => op.onNumbers (fun x y => .number (x * y)) a b
  | divide => op.onNumbers (fun x y => .number (x / y)) a b
  | modulo => op.onNumbers (fun x y => .number (Double.remainder x y)) a b
  | floorDivide => op.onNumbers (fun x y => .number (x - Double.remainder x y)) a b
  | power => op.onNumbers (fun x y => .number (Float.pow x y)) a b
  | shiftLeft => op.onShift (fun w n => w <<< n) a b
  | shiftRight => op.onShift (fun w n => w.sshiftRight n) a b
  | bitAnd => op.onWords (fun v w => v &&& w) a b
  | bitOr => op.onWords (fun v w => v ||| w) a b
  | bitXor => op.onWords (fun v w => v ^^^ w) a b
  | and => .ok (.boolean (a.isTruthy && b.isTruthy))
  | or => .ok (.boolean (a.isTruthy || b.isTruthy))
  | equal => .ok (.boolean (a.equal b))
  | notEqual => .ok (.boolean (!a.equal b))
  | less => op.onNumbers (fun x y => .boolean (x < y)) a b
  | lessEqual => op.onNumbers (fun x y => .boolean (x ≤ y)) a b
  | greater => op.onNumbers (fun x y => .boolean (y < x)) a b
  | greaterEqual => op.onNumbers (fun x y => .boolean (y ≤ x)) a b
  | is => op.onNumbers (fun x y => .boolean (x == y)) a b
  | isNot => op.onNumbers (fun x y => .boolean (x != y)) a b
  | within => op.onTexts (fun s t => .boolean (isInfix s.toList t.toList)) a b
  | notWithin => op.onTexts (fun s t => .boolean (!isInfix s.toList t.toList)) a b

end BinaryOp

namespace UnaryOp

/-- A sign, which takes a number. -/
def onNumber (op : UnaryOp) (f : Float → Float) : Value → Except Cause Value
  | .number x => .ok (.number (f x))
  | _ => .error (.invalidOperand op)

def apply (op : UnaryOp) (v : Value) : Except Cause Value :=
  match op with
  | not => .ok (.boolean (!v.isTruthy))
  | negate => op.onNumber (fun x => -x) v
  | plus => op.onNumber (fun x => x) v
  | bitNot => op.onNumber (fun x => Double.ofWord (~~~Double.toWord x)) v

end UnaryOp

end Offside
