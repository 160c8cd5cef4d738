import Offside.Double.Basic

/-!
# Doubles as decimal text

Numbers are written with the fewest digits that read back as the same double, always positionally:
no exponent, however large or small the number is. They are read as digits with an optional
fraction, rounded to the closest double.

Decimals are counted in *ticks* of `10 ^ -324`. That grid is finer than the doubles at any
magnitude, so each double has a tick that reads back as it, and all comparisons are between
naturals.

* `shortest c`: the decimal written for the code `c`. It lies on the coarsest decimal grid that has
  a point among the reals which round to `c`, and of that grid it is the point closest to the
  double.
* `readDigits`: the code of a written decimal.
-/

namespace Offside.Double

/-! ## Shortest decimals -/

/-- Decimal places of a tick. -/
def tickPlaces : Nat := 324

def ticksPerUnit : Nat := Nat.pow 10 tickPlaces

/-- Twice the number of quanta where the reals that round to `c` begin: half way to the code
below. -/
def lowerBound (c : Nat) : Nat := quanta (c - 1) + quanta c

/-- Twice the number of quanta where the reals that round to `c` end. -/
def upperBound (c : Nat) : Nat := quanta c + quanta (c + 1)

/-- The first tick that rounds to the code `c`. Half way to the code below goes to the even
neighbour, so it belongs to `c` when `c` is even. -/
def firstTick (c : Nat) : Nat :=
  let lo := lowerBound c * ticksPerUnit
  if c % 2 = 0 then (lo + (2 * unit - 1)) / (2 * unit) else lo / (2 * unit) + 1

/-- The last tick that rounds to the code `c`. -/
def lastTick (c : Nat) : Nat :=
  let hi := upperBound c * ticksPerUnit
  if c % 2 = 0 then hi / (2 * unit) else (hi - 1) / (2 * unit)

/-- A decimal: `digits * 10 ^ scale` ticks. -/
structure Decimal where
  digits : Nat
  scale : Nat
deriving DecidableEq, Repr

/-- The point of the grid of step `g` that is written for `v / unit` ticks, as a multiple of the
step: of the two neighbours on the grid the one between the ticks `lo` and `hi`, and of two such the
closer, the upper one if both are as close. -/
def gridPoint? (v lo hi g : Nat) : Option Nat :=
  let n := v / unit / g
  if lo ≤ n * g then
    if (n + 1) * g ≤ hi then some (if 2 * v < (2 * n + 1) * g * unit then n else n + 1)
    else some n
  else if (n + 1) * g ≤ hi then some (n + 1)
  else none

/-- The point of the first grid that has one, among those of step `10 ^ j`, `10 ^ (j - 1)`, …,
`1`. -/
def search (v lo hi : Nat) : Nat → Decimal
  | 0 => ⟨(gridPoint? v lo hi 1).getD 0, 0⟩
  | j + 1 =>
    match gridPoint? v lo hi (Nat.pow 10 (j + 1)) with
    | some n => ⟨n, j + 1⟩
    | none => search v lo hi j

/-- No coarser grid has a point up to `hi` other than zero: since `2 ^ 13 < 10 ^ 4`, the next power
of ten is beyond it. -/
def firstGrid (hi : Nat) : Nat := hi.log2 * 4 / 13 + 1

/-- The shortest decimal that reads back as `c`. -/
def shortest (c : Nat) : Decimal :=
  let hi := lastTick c
  search (quanta c * ticksPerUnit) (firstTick c) hi (firstGrid hi)

/-! ## Writing -/

/-- A decimal as digits, with a point only if there is a fraction. -/
def Decimal.positional (d : Decimal) : List Char :=
  let ds := Nat.toDigits 10 d.digits
  if d.digits = 0 then ds
  else if tickPlaces ≤ d.scale then ds ++ List.replicate (d.scale - tickPlaces) '0'
  else
    let places := tickPlaces - d.scale
    let padded := List.replicate (places + 1 - ds.length) '0' ++ ds
    padded.take (padded.length - places) ++ '.' :: padded.drop (padded.length - places)

/-- How a number is written where its digits do not decide. -/
structure Style where
  /-- The text of a NaN, which has no sign. -/
  notANumber : String
  /-- The text of infinity, after its sign. -/
  infinite : String
  /-- Whether minus zero keeps its sign. -/
  signedZero : Bool

def render (style : Style) (x : Float) : String :=
  let c := code x
  let sign := if isNegative x && (style.signedZero || c != 0) then "-" else ""
  if c < infinityCode then sign ++ String.ofList (shortest c).positional
  else if c = infinityCode then sign ++ style.infinite
  else style.notANumber

/-- Programs see `Infinity` and `NaN`, and one zero. -/
def printed : Style := ⟨"NaN", "Infinity", false⟩

/-- Token listings keep the sign of zero and write `inf`. -/
def listed : Style := ⟨"NaN", "inf", true⟩

/-! ## Reading -/

def digitsValue (ds : List Char) : Nat := ds.foldl (fun n d => 10 * n + (d.toNat - '0'.toNat)) 0

/-- The code of the double closest to `whole.fraction`. -/
def readDigits (whole fraction : List Char) : Nat :=
  nearest (digitsValue (whole ++ fraction) * unit) (Nat.pow 10 fraction.length)

end Offside.Double
