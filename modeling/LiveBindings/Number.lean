/-!
# Numbers: double precision, with exact arithmetic behind every operation

A number is its sixty-four bits. Every finite number is a whole multiple of `2 ^ -1074`, so its exact value is the integer
`units`, and each operation is the exact result on units, rounded once to the nearest number with ties to even
(`ofRatio`). Three relations are kept apart: the bits themselves (`=`), the numeric order in which the two zeros are one
and NaN is unordered (`numericLt`, `numericEq`), and the total order over all bit patterns (`totalCompare`).
-/

namespace LiveBindings

/-- A double-precision number, given by its bits: a sign, eleven bits of exponent, fifty-two of fraction. -/
structure Number where
  bits : UInt64
deriving DecidableEq, Inhabited

namespace Number

/-- The bits without the sign. -/
def magnitude (x : Number) : Nat := x.bits.toNat % Nat.pow 2 63

/-- Whether the sign bit is set; it is for `-0` and may be for NaN. -/
def negative (x : Number) : Bool := decide (Nat.pow 2 63 ≤ x.bits.toNat)

/-- The magnitude of infinity: all exponent bits set and no fraction. -/
def infiniteMagnitude : Nat := 2047 * Nat.pow 2 52

/-- The number with the given sign and magnitude. -/
def ofMagnitude (negative : Bool) (magnitude : Nat) : Number :=
  ⟨UInt64.ofNat (if negative then Nat.pow 2 63 + magnitude else magnitude)⟩

def isNaN (x : Number) : Bool := decide (infiniteMagnitude < x.magnitude)

def isInfinite (x : Number) : Bool := x.magnitude == infiniteMagnitude

def isFinite (x : Number) : Bool := decide (x.magnitude < infiniteMagnitude)

def isZero (x : Number) : Bool := x.magnitude == 0

def zero : Number := ⟨0⟩

def negZero : Number := ofMagnitude true 0

def one : Number := ⟨0x3FF0000000000000⟩

/-- The NaN that stands for "not a number" where no operation produced it. -/
def nan : Number := ⟨0x7FF8000000000000⟩

/-- The NaN of an invalid operation, such as zero divided by zero; its sign bit is set. -/
def invalid : Number := ⟨0xFFF8000000000000⟩

def infinity (negative : Bool) : Number := ofMagnitude negative infiniteMagnitude

/-- The same number with the sign bit flipped, NaN included. -/
def neg (x : Number) : Number := ofMagnitude (!x.negative) x.magnitude

/-! ## Exact values -/

/-- The absolute value of a finite number in units of `2 ^ -1074`. -/
def absUnits (x : Number) : Nat :=
  let exponent := x.magnitude / Nat.pow 2 52
  let fraction := x.magnitude % Nat.pow 2 52
  if exponent = 0 then fraction else (Nat.pow 2 52 + fraction) * Nat.pow 2 (exponent - 1)

/-- The exact value of a finite number in units of `2 ^ -1074`; both zeros are `0`. -/
def units (x : Number) : Int :=
  if x.negative then -(x.absUnits : Int) else (x.absUnits : Int)

/-- The number of units in one. -/
def unitsPerOne : Nat := Nat.pow 2 1074

/-- `num / den` rounded to the nearest integer, a tie to the even one. -/
def roundToEven (num den : Nat) : Nat :=
  let q := num / den
  let r := num % den
  if 2 * r < den then q else if den < 2 * r then q + 1 else q + q % 2

/-- The magnitude of the number nearest to `num / den`, a tie to the even one; beyond the largest number it is that of
infinity. With `e` the exponent of the last place, the magnitude is the count of last places plus `e` times the step
from one binade to the next, since the leading bit of the count carries into the exponent. -/
def nearestMagnitude (num den : Nat) : Nat :=
  if num = 0 then 0
  else
    let guess : Int := max (-1074) ((num.log2 : Int) - (den.log2 : Int) - 53)
    let scaled (e : Int) : Nat × Nat := (num * Nat.pow 2 (-e).toNat, den * Nat.pow 2 e.toNat)
    let fits (e : Int) : Bool := let (n, d) := scaled e; decide (n / d < Nat.pow 2 53)
    let e : Int := if fits guess then guess else if fits (guess + 1) then guess + 1 else guess + 2
    let (n, d) := scaled e
    min infiniteMagnitude ((e + 1074).toNat * Nat.pow 2 52 + roundToEven n d)

/-- The number nearest to `num / den` with the given sign. -/
def ofRatio (negative : Bool) (num den : Nat) : Number :=
  ofMagnitude negative (nearestMagnitude num den)

/-- The number nearest to a natural number. -/
def ofNat (n : Nat) : Number := ofRatio false n 1

/-- The number nearest to an integer. -/
def ofInt (n : Int) : Number := ofRatio (decide (n < 0)) n.natAbs 1

/-- The number nearest to a whole count of units; no units give the zero with the given sign. -/
def ofUnits (zeroSign : Bool) (u : Int) : Number :=
  if u = 0 then ofMagnitude zeroSign 0 else ofRatio (decide (u < 0)) u.natAbs unitsPerOne

/-- Whether a finite number is whole. -/
def isWhole (x : Number) : Bool := x.isFinite && x.absUnits % unitsPerOne == 0

/-- The whole part of a finite number's absolute value. -/
def wholePart (x : Number) : Nat := x.absUnits / unitsPerOne

/-- Whether a finite number is whole and odd. -/
def isOdd (x : Number) : Bool := x.isWhole && x.wholePart % 2 == 1

/-! ## Order -/

/-- Numeric equality: the zeros are equal and NaN equals nothing. -/
def numericEq (x y : Number) : Bool :=
  !x.isNaN && !y.isNaN && (x == y || (x.isZero && y.isZero))

/-- The position of a number in numeric order; both zeros are at `0`. NaN has no place in it. -/
def numericKey (x : Number) : Int :=
  if x.negative then -(x.magnitude : Int) else (x.magnitude : Int)

/-- Numeric comparison, undefined when either side is NaN. -/
def numericCompare (x y : Number) : Option Ordering :=
  if x.isNaN || y.isNaN then none else some (compare x.numericKey y.numericKey)

/-- The position of a number in the total order of bit patterns: negative NaN, `-∞`, …, `-0`, `0`, …, `∞`, NaN. -/
def totalKey (x : Number) : Int :=
  if x.negative then -(x.magnitude : Int) - 1 else (x.magnitude : Int)

/-- The total order over all bit patterns. -/
def totalCompare (x y : Number) : Ordering := compare x.totalKey y.totalKey

/-- Equal as numbers, or both NaN. -/
def same (x y : Number) : Bool := x.numericEq y || (x.isNaN && y.isNaN)

/-! ## Arithmetic -/

/-- A NaN operand with its quiet bit set. -/
def quiet (x : Number) : Number := ⟨x.bits ||| 0x0008000000000000⟩

/-- The first NaN among two operands passes through an operation; otherwise `op` decides. -/
def withNaN (x y : Number) (op : Number) : Number :=
  if x.isNaN then x.quiet else if y.isNaN then y.quiet else op

def add (x y : Number) : Number :=
  withNaN x y <|
    if x.isInfinite then (if y.isInfinite && x.negative != y.negative then invalid else x)
    else if y.isInfinite then y
    else ofUnits (x.negative && y.negative) (x.units + y.units)

def sub (x y : Number) : Number :=
  withNaN x y (add x y.neg)

def mul (x y : Number) : Number :=
  withNaN x y <|
    let negative := x.negative != y.negative
    if x.isInfinite || y.isInfinite then
      if x.isZero || y.isZero then invalid else infinity negative
    else ofRatio negative (x.absUnits * y.absUnits) (unitsPerOne * unitsPerOne)

def div (x y : Number) : Number :=
  withNaN x y <|
    let negative := x.negative != y.negative
    if x.isInfinite then (if y.isInfinite then invalid else infinity negative)
    else if y.isInfinite then ofMagnitude negative 0
    else if y.isZero then (if x.isZero then invalid else infinity negative)
    else ofRatio negative x.absUnits y.absUnits

/-- The remainder of the division that truncates; it takes the sign of `x` and is exact. -/
def rem (x y : Number) : Number :=
  withNaN x y <|
    if x.isInfinite || y.isZero then invalid
    else if y.isInfinite then x
    else ofRatio x.negative (x.absUnits % y.absUnits) unitsPerOne

/-- A zero to a power that is not `0`: its sign lasts through odd powers. -/
def zeroPow (x y : Number) : Number :=
  let negative := x.negative && y.isOdd
  if y.negative then infinity negative else ofMagnitude negative 0

/-- `x` to the power `y`. The power `0` and the base `1` give `1` whatever the other operand, NaN included. -/
def pow (x y : Number) : Number :=
  if y.isZero || x == one then one
  else withNaN x y <|
    if x.isZero then zeroPow x y
    else
      let r : Number := ⟨(Float.pow (Float.ofBits x.bits) (Float.ofBits y.bits)).toBits⟩
      if r.isNaN then invalid else r

/-- The total of a list, added from the left to the neutral element `-0`. -/
def sum (xs : List Number) : Number := xs.foldl add negZero

/-- The mean of a list, NaN when it is empty. -/
def mean (xs : List Number) : Number := (sum xs).div (ofNat xs.length)

end Number

end LiveBindings
