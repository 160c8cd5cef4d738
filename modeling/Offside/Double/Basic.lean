/-!
# Doubles as whole numbers of quanta

Every finite double is a whole multiple of the least positive one, `2 ^ -1074`. So its magnitude
is a natural number of such quanta, and all exact reasoning about doubles is done on naturals.

The low 63 bits of a double are its *code*: codes count the non-negative doubles in increasing
order, from zero up to infinity, and every larger code is a NaN. A code below `2 ^ 53` is its own
number of quanta; from there on the step between neighbours doubles every `2 ^ 52` codes.

* `quanta c`: the magnitude that the code `c` stands for.
* `nearest num den`: the code closest to the fraction `num / den` of quanta, ties to the even code.
-/

namespace Offside.Double

/-! ## Codes -/

/-- Codes between two doublings of the step. -/
def fractionCount : Nat := 1 <<< 52

/-- The place value of the sign bit. -/
def signPlace : Nat := 1 <<< 63

/-- The code of infinity; finite magnitudes have smaller codes, NaN a larger one. -/
def infinityCode : Nat := 2047 * fractionCount

/-- Quanta in the number one. -/
def unit : Nat := 1 <<< 1074

/-- How often the step between neighbours has doubled when the code `c` is reached. -/
def doublings (c : Nat) : Nat := c / fractionCount - 1

/-- The multiple of the step at `c` that the code stands for. -/
def mantissa (c : Nat) : Nat := c - doublings c * fractionCount

/-- The magnitude of the code `c`, in quanta. -/
def quanta (c : Nat) : Nat := mantissa c <<< doublings c

/-! ## Rounding -/

/-- The natural number closest to `num / den`; a half goes to the even neighbour. -/
def divRound (num den : Nat) : Nat :=
  let q := num / den
  match compare (2 * (num % den)) den with
  | .lt => q
  | .eq => q + q % 2
  | .gt => q + 1

/-- The code whose magnitude is closest to `num / den` quanta, ties to the even code. A magnitude
that rounds past the last finite double has the code of infinity. -/
def nearest (num den : Nat) : Nat :=
  let d := (num / den).log2 - 52
  min (d * fractionCount + divRound num (den <<< d)) infinityCode

/-! ## Floats -/

def code (x : Float) : Nat := x.toBits.toNat % signPlace

/-- Whether the sign bit is set, which it also is for minus zero. -/
def isNegative (x : Float) : Bool := signPlace ≤ x.toBits.toNat

def isFinite (x : Float) : Bool := code x < infinityCode

def ofCode (negative : Bool) (c : Nat) : Float :=
  Float.ofBits (UInt64.ofNat (if negative then signPlace + c else c))

/-- The result of an operation that has no number as its result. -/
def nan : Float := ofCode false (infinityCode + fractionCount / 2)

def ofInt (i : Int) : Float := ofCode (i < 0) (nearest (i.natAbs * unit) 1)

/-! ## Remainder -/

/-- The remainder of `a` by `b` with the sign of `a`, computed without rounding. There is none when
`a` is infinite or `b` is zero, and an infinite `b` leaves `a` as it is. -/
def remainder (a b : Float) : Float :=
  if code a < infinityCode then
    if code b < infinityCode then
      if code b = 0 then nan
      else ofCode (isNegative a) (nearest (quanta (code a) % quanta (code b)) 1)
    else if code b = infinityCode then a else nan
  else nan

end Offside.Double
