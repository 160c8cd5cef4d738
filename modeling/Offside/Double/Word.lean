import Offside.Double.Basic

/-!
# Doubles as 32-bit words

The bitwise operators work on words: a double is cut to its integer part, of which the remainder by
`2 ^ 32` is taken, and this is small enough to be a word. All of it is done on doubles. A word read
back as a signed integer is a double again, without rounding.
-/

namespace Offside.Double

/-- The integer part of a double, toward zero. What is not finite stays as it is. -/
def truncate (x : Float) : Float :=
  if isFinite x then ofCode (isNegative x) (nearest (quanta (code x) / unit * unit) 1) else x

/-- The remainder of `a` by `b`, brought up by `b` if it is below zero. -/
def euclidean (a b : Float) : Float :=
  let r := remainder a b
  if r < 0 then r + b.abs else r

def wordCount : Float := ofInt 4294967296

/-- The integer part modulo `2 ^ 32`. What is not finite has no integer part, and is taken as zero.
-/
def toWord (x : Float) : BitVec 32 :=
  if isFinite x then (euclidean (truncate x) wordCount).toUInt32.toBitVec else 0

def ofWord (w : BitVec 32) : Float := ofInt w.toInt

/-- Shift counts are taken modulo the width of a word. -/
def shiftCount (x : Float) : Nat := (toWord x).toNat % 32

end Offside.Double
