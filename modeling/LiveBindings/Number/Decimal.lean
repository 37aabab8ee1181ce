import LiveBindings.Number

/-!
# Decimal forms of a number

`Number.shortest` gives the fewest decimal digits that read back as the same number, and of those the nearest to it. Two
texts are written from these digits: the plain one, which never uses an exponent, and the one of JSON, which keeps a
fraction part on whole numbers and uses an exponent outside `1e-5 … 1e16`. `Number.read?` is the reader: it takes the
number nearest to the decimal that the text spells.
-/

namespace LiveBindings

/-- The value `digits * 10 ^ exponent`. -/
structure Decimal where
  digits : Nat
  exponent : Int
deriving DecidableEq, Repr

namespace Number

/-- Which neighbour a value halfway between two shortest candidates takes. -/
inductive Tie
  | up
  | toEven
deriving DecidableEq

/-- The decimal `c * 10 ^ k` of the grid `10 ^ k` that reads back as the number and is nearest to it, if there is one.
The reals that round to the number reach half a last place up and half a last place down, or a quarter down where the
binade below is finer; the ends count when the fraction is even. -/
def onGrid (tie : Tie) (x : Number) (k : Int) : Option Nat :=
  let binade : Nat := x.magnitude / Nat.pow 2 52
  let fraction : Nat := x.magnitude % Nat.pow 2 52
  let m : Nat := if binade = 0 then fraction else Nat.pow 2 52 + fraction
  let e : Int := (if binade = 0 then -1074 else (binade : Int) - 1075) - 2
  let unit := Nat.pow 2 e.toNat * Nat.pow 10 (-k).toNat
  let den := Nat.pow 10 k.toNat * Nat.pow 2 (-e).toNat
  let value := 4 * m * unit
  let high := (4 * m + 2) * unit
  let low := (4 * m - (if fraction = 0 && 1 < binade then 1 else 2)) * unit
  let inside (c : Nat) : Bool :=
    if m % 2 = 0 then low ≤ c * den && c * den ≤ high else low < c * den && c * den < high
  let c := value / den
  let r := 2 * (value % den)
  match inside c, inside (c + 1) with
  | false, false => none
  | true, false => some c
  | false, true => some (c + 1)
  | true, true =>
    if r < den then some c
    else if den < r then some (c + 1)
    else match tie with
      | .up => some (c + 1)
      | .toEven => some (c + c % 2)

/-- The number of decimal digits of a natural number; zero has one. -/
def digitCount (n : Nat) : Nat := (Nat.toDigits 10 n).length

/-- The position of the leading decimal digit of a positive finite number, or one above it. -/
def leadingPosition (x : Number) : Int :=
  let u := x.absUnits
  if unitsPerOne ≤ u then (digitCount (u / unitsPerOne) : Int)
  else 1 - (digitCount (unitsPerOne / u) : Int)

/-- Drops trailing zeros of the digits into the exponent; `fuel` bounds their number. -/
def dropZeros : Nat → Decimal → Decimal
  | 0, d => d
  | fuel + 1, d =>
    if d.digits ≠ 0 && d.digits % 10 = 0 then dropZeros fuel ⟨d.digits / 10, d.exponent + 1⟩ else d

/-- The shortest decimal of a positive finite number: the first grid, from the coarsest on, that holds a decimal reading
back as the number. Seventeen digits always suffice. -/
def shortest (tie : Tie) (x : Number) : Decimal :=
  let top := x.leadingPosition
  let grids := (List.range 20).map fun i : Nat => top - (i : Int)
  match grids.findSome? fun k => (onGrid tie x k).bind fun c => if c = 0 then none else some (⟨c, k⟩ : Decimal) with
  | some d => dropZeros 20 d
  | none => ⟨0, 0⟩

/-- A natural number in base ten. -/
def natText (n : Nat) : String := String.ofList (Nat.toDigits 10 n)

/-- An integer in base ten. -/
def intText (n : Int) : String := if n < 0 then "-" ++ natText n.natAbs else natText n.natAbs

/-- A run of zeros. -/
def zerosText (n : Nat) : String := String.ofList (List.replicate n '0')

/-- A decimal without an exponent; whole values have no point. -/
def positional (d : Decimal) : String :=
  let ds := Nat.toDigits 10 d.digits
  if 0 ≤ d.exponent then String.ofList ds ++ zerosText d.exponent.toNat
  else
    let places := (-d.exponent).toNat
    if places < ds.length then
      String.ofList (ds.take (ds.length - places)) ++ "." ++ String.ofList (ds.drop (ds.length - places))
    else "0." ++ zerosText (places - ds.length) ++ String.ofList ds

/-- The sign in front of a number's text. -/
def signText (x : Number) : String := if x.negative then "-" else ""

/-- The plain text: `NaN`, `inf`, or the shortest digits written out without an exponent; `-0` keeps its sign. -/
def text (x : Number) : String :=
  if x.isNaN then "NaN"
  else if x.isInfinite then x.signText ++ "inf"
  else if x.isZero then x.signText ++ "0"
  else x.signText ++ positional (shortest .up x)

/-- The JSON text of a finite number: at least one digit on each side of the point for values from `1e-5` up to below
`1e16`, otherwise one digit before the point, if more follow, and an exponent. -/
def jsonText (x : Number) : String :=
  if x.isZero then x.signText ++ "0.0"
  else
    let d := shortest .toEven x
    let ds := Nat.toDigits 10 d.digits
    let point : Int := (ds.length : Int) + d.exponent
    x.signText ++
      (if 0 ≤ d.exponent && point ≤ 16 then positional d ++ ".0"
       else if -5 < point && point ≤ 16 then positional d
       else
         let rest := ds.drop 1
         String.ofList (ds.take 1) ++ (if rest.isEmpty then "" else "." ++ String.ofList rest)
           ++ "e" ++ intText (point - 1))

/-! ## Reading -/

/-- The number nearest to a decimal. Decimals far outside the range need no big powers. -/
def ofDecimal (negative : Bool) (d : Decimal) : Number :=
  let size := (digitCount d.digits : Int) + d.exponent
  if d.digits = 0 || size < -400 then ofMagnitude negative 0
  else if 400 < size then infinity negative
  else ofRatio negative (d.digits * Nat.pow 10 d.exponent.toNat) (Nat.pow 10 (-d.exponent).toNat)

/-- The value of a run of decimal digits after `n`. -/
def digitsValue (n : Nat) (ds : List Char) : Nat :=
  ds.foldl (fun n c => n * 10 + (c.toNat - '0'.toNat)) n

/-- Splits off the leading decimal digits. -/
def spanDigits (cs : List Char) : List Char × List Char :=
  (cs.takeWhile Char.isDigit, cs.dropWhile Char.isDigit)

/-- The exponent part of a decimal: nothing, or `e`, an optional sign and digits up to the end of the text. -/
def readExponent? : List Char → Option Int
  | [] => some 0
  | c :: cs =>
    if c = 'e' || c = 'E' then
      let (negative, ds) := match cs with
        | '-' :: ds => (true, ds)
        | '+' :: ds => (false, ds)
        | ds => (false, ds)
      if ds.isEmpty || !ds.all Char.isDigit then none
      else
        let n : Int := (digitsValue 0 ds : Nat)
        some (if negative then -n else n)
    else none

/-- A decimal without a sign: digits with an optional point, at least one digit, and an optional exponent. -/
def readDecimal? (cs : List Char) : Option Decimal :=
  let (whole, rest) := spanDigits cs
  let (fraction, rest) := match rest with
    | '.' :: r => spanDigits r
    | r => ([], r)
  if whole.isEmpty && fraction.isEmpty then none
  else (readExponent? rest).map fun e =>
    ⟨digitsValue (digitsValue 0 whole) fraction, e - (fraction.length : Int)⟩

/-- A number after its sign: a decimal, `inf`, `infinity` or `nan`, the words in either case. -/
def readUnsigned? (negative : Bool) (cs : List Char) : Option Number :=
  match readDecimal? cs with
  | some d => some (ofDecimal negative d)
  | none =>
    let word := String.ofList (cs.map Char.toLower)
    if word == "inf" || word == "infinity" then some (infinity negative)
    else if word == "nan" then some (if negative then nan.neg else nan)
    else none

/-- Reads a number from the whole of a text. Blanks are not skipped. -/
def read? (s : String) : Option Number :=
  match s.toList with
  | '-' :: cs => readUnsigned? true cs
  | '+' :: cs => readUnsigned? false cs
  | cs => readUnsigned? false cs

end Number

end LiveBindings
