import LiveBindings.Json

/-!
# JSON documents

A document is JSON text taken apart but not yet judged: members keep their order and repetitions, numbers keep their
digits, and a text with a lone surrogate is marked and not refused, because what a reader skips need not make sense.
`Document.toJson?` judges a document: the depth of nesting, the range of numbers and the texts.
-/

namespace LiveBindings

/-- The digits of a number as written. -/
structure NumberText where
  negative : Bool
  whole : List Char
  /-- The digits after the point; at least one when there is a point. -/
  fraction : List Char
  /-- The sign and the digits after `e`; at least one digit when there is an exponent. -/
  exponent : Option (Bool × List Char)

/-- JSON text taken apart. A text is `none` when its escapes hold half a surrogate pair. -/
inductive Document
  | null
  | bool (b : Bool)
  | number (n : NumberText)
  | text (s : Option String)
  | array (items : List Document)
  | object (members : List (Option String × Document))

instance : Inhabited Document := ⟨.null⟩

namespace NumberText

/-- The number nearest to the decimal that is written. -/
def nearest (n : NumberText) : Number :=
  let digits := Number.digitsValue (Number.digitsValue 0 n.whole) n.fraction
  let e : Int := match n.exponent with
    | none => 0
    | some (negative, ds) =>
      let e : Int := (Number.digitsValue 0 ds : Nat)
      if negative then -e else e
  Number.ofDecimal n.negative ⟨digits, e - (n.fraction.length : Int)⟩

/-- The bound of the integer in which the digits of a number are collected. -/
def digitBound : Nat := Nat.pow 2 64

/-- Collects digits while they fit below the bound, and returns the rest. -/
def collect (acc : Nat) : List Char → Nat × List Char
  | [] => (acc, [])
  | c :: cs =>
    let next := acc * 10 + (c.toNat - '0'.toNat)
    if next < digitBound then collect next cs else (acc, c :: cs)

/-- Scales a non-negative double by a power of ten in steps of at most `10 ^ 308`, rounding in every step. Too large a
result is refused. -/
def scale (f : Number) (e : Int) : Option Number :=
  if 0 ≤ e then
    if 308 < e then (if f.isZero then some f else none)
    else
      let r := f.mul (Number.ofNat (Nat.pow 10 e.toNat))
      if r.isInfinite then none else some r
  else if -308 ≤ e then some (f.div (Number.ofNat (Nat.pow 10 (-e).toNat)))
  else if f.isZero then some f
  else scale (f.div (Number.ofNat (Nat.pow 10 308))) (e + 308)
termination_by (-e).toNat
decreasing_by omega

/-- The sign of a double, given its absolute value. -/
def withSign (negative : Bool) (x : Number) : Number := if negative then x.neg else x

/-- The double of collected digits and an exponent. -/
def ofParts (negative : Bool) (digits : Nat) (e : Int) : Option JsonNumber :=
  (scale (Number.ofNat digits) e).map fun x => .float (withSign negative x)

/-- The largest exponent that is read as a number. -/
def maxExponent : Nat := Nat.pow 2 31 - 1

/-- The double of collected digits, the exponent of their last digit, and a written exponent. -/
def withExponent (negative : Bool) (digits : Nat) (place : Int) : Option (Bool × List Char) → Option JsonNumber
  | none => ofParts negative digits place
  | some (down, ds) =>
    let e := Number.digitsValue 0 ds
    if maxExponent < e then
      if digits ≠ 0 && !down then none else some (.float (withSign negative .zero))
    else
      let total : Int := if down then place - e else place + e
      ofParts negative digits (max (-Int.pow 2 31) (min maxExponent total))

/-- The JSON number that is written: an integer where it fits, otherwise a double scaled from the digits that fit into
sixty-four bits. Minus zero is a double. Too large a number is refused. -/
def toJson? (n : NumberText) : Option JsonNumber :=
  let (digits, dropped) := collect 0 n.whole
  if n.fraction.isEmpty && n.exponent.isNone && dropped.isEmpty then
    if !n.negative then some (.natural digits)
    else if digits = 0 || Nat.pow 2 63 < digits then some (.float (Number.ofNat digits).neg)
    else some (.negative digits)
  else
    let (digits, rest) := collect digits n.fraction
    let place : Int := (dropped.length : Int) - ((n.fraction.length - rest.length : Nat) : Int)
    withExponent n.negative digits place n.exponent

end NumberText

namespace Document

/-! ## Reading text -/

def isBlank (c : Char) : Bool := c = ' ' || c = '\n' || c = '\t' || c = '\r'

def skipBlanks (cs : List Char) : List Char := cs.dropWhile isBlank

/-- The value of a hexadecimal digit. -/
def hexDigit? (c : Char) : Option Nat :=
  if '0' ≤ c && c ≤ '9' then some (c.toNat - '0'.toNat)
  else if 'a' ≤ c && c ≤ 'f' then some (c.toNat - 'a'.toNat + 10)
  else if 'A' ≤ c && c ≤ 'F' then some (c.toNat - 'A'.toNat + 10)
  else none

/-- A piece of a quoted text: a character, or a sixteen-bit unit written as an escape. -/
inductive Piece
  | char (c : Char)
  | unit (n : Nat)

/-- The character of a one-letter escape. -/
def shortEscape? : Char → Option Char
  | '"' => some '"'
  | '\\' => some '\\'
  | '/' => some '/'
  | 'b' => some '\x08'
  | 'f' => some '\x0c'
  | 'n' => some '\n'
  | 'r' => some '\r'
  | 't' => some '\t'
  | _ => none

/-- The pieces of a quoted text after its opening quote, and what follows the closing one. -/
def readPieces : List Char → Option (List Piece × List Char)
  | [] => none
  | '"' :: rest => some ([], rest)
  | '\\' :: 'u' :: a :: b :: c :: d :: rest => do
    let n := (((← hexDigit? a) * 16 + (← hexDigit? b)) * 16 + (← hexDigit? c)) * 16 + (← hexDigit? d)
    let (ps, rest) ← readPieces rest
    some (.unit n :: ps, rest)
  | '\\' :: c :: rest => do
    let e ← shortEscape? c
    let (ps, rest) ← readPieces rest
    some (.char e :: ps, rest)
  | c :: rest =>
    if c = '\\' || c.toNat < 0x20 then none
    else do
      let (ps, rest) ← readPieces rest
      some (.char c :: ps, rest)

/-- Joins surrogate pairs; half a pair has no character. -/
def joinPieces : List Piece → Option (List Char)
  | [] => some []
  | .char c :: ps => (joinPieces ps).map (c :: ·)
  | .unit n :: ps =>
    if n < 0xD800 || 0xDFFF < n then (joinPieces ps).map (Char.ofNat n :: ·)
    else match ps with
      | .unit m :: ps =>
        if n < 0xDC00 && 0xDC00 ≤ m && m ≤ 0xDFFF then
          (joinPieces ps).map (Char.ofNat (0x10000 + (n - 0xD800) * 0x400 + (m - 0xDC00)) :: ·)
        else none
      | _ => none

/-- A quoted text after its opening quote. -/
def readText (cs : List Char) : Option (Option String × List Char) :=
  (readPieces cs).map fun (ps, rest) => ((joinPieces ps).map String.ofList, rest)

/-- The sign of a number, and what follows it. -/
def splitSign : List Char → Bool × List Char
  | '-' :: cs => (true, cs)
  | cs => (false, cs)

/-- The digits before the point; a leading zero stands alone. -/
def splitWhole : List Char → List Char × List Char
  | '0' :: cs => (['0'], cs)
  | cs => Number.spanDigits cs

/-- The digits after the point, at least one if there is a point. -/
def readFraction? : List Char → Option (List Char × List Char)
  | '.' :: cs =>
    let ds := Number.spanDigits cs
    if ds.1.isEmpty then none else some ds
  | cs => some ([], cs)

/-- Whether an exponent is negative, and what follows its sign. -/
def splitDirection : List Char → Bool × List Char
  | '-' :: cs => (true, cs)
  | '+' :: cs => (false, cs)
  | cs => (false, cs)

/-- The sign and the digits of an exponent, at least one if there is an exponent mark. -/
def readExponent? : List Char → Option (Option (Bool × List Char) × List Char)
  | [] => some (none, [])
  | c :: cs =>
    if c = 'e' || c = 'E' then
      let direction := splitDirection cs
      let ds := Number.spanDigits direction.2
      if ds.1.isEmpty then none else some (some (direction.1, ds.1), ds.2)
    else some (none, c :: cs)

/-- A number: no leading zeros, and digits on both sides of a point and after an exponent mark. -/
def readNumber (cs : List Char) : Option (NumberText × List Char) :=
  let sign := splitSign cs
  let whole := splitWhole sign.2
  if whole.1.isEmpty || (whole.1 = ['0'] && whole.2.head?.any Char.isDigit) then none
  else
    (readFraction? whole.2).bind fun fraction =>
      (readExponent? fraction.2).map fun exponent =>
        (⟨sign.1, whole.1, fraction.1, exponent.1⟩, exponent.2)

/-- What follows a word at the start of a text. -/
def dropWord? (word : List Char) (cs : List Char) : Option (List Char) :=
  if word.isPrefixOf cs then some (cs.drop word.length) else none

mutual

/-- A value, after any blanks, and what follows it. Every nested value takes at least one character, so the length of the
text is enough fuel. -/
def readValue : Nat → List Char → Option (Document × List Char)
  | 0, _ => none
  | fuel + 1, cs =>
    match skipBlanks cs with
    | [] => none
    | '"' :: rest => (readText rest).map fun (s, rest) => (.text s, rest)
    | '[' :: rest =>
      match skipBlanks rest with
      | ']' :: rest => some (.array [], rest)
      | rest => (readItems fuel rest).map fun (ds, rest) => (.array ds, rest)
    | '{' :: rest =>
      match skipBlanks rest with
      | '}' :: rest => some (.object [], rest)
      | rest => (readMembers fuel rest).map fun (ms, rest) => (.object ms, rest)
    | c :: rest =>
      if c = 'n' then (dropWord? "ull".toList rest).map fun rest => (.null, rest)
      else if c = 't' then (dropWord? "rue".toList rest).map fun rest => (.bool true, rest)
      else if c = 'f' then (dropWord? "alse".toList rest).map fun rest => (.bool false, rest)
      else (readNumber (c :: rest)).map fun (n, rest) => (.number n, rest)

/-- One or more items up to the closing bracket. -/
def readItems : Nat → List Char → Option (List Document × List Char)
  | 0, _ => none
  | fuel + 1, cs => do
    let (d, rest) ← readValue fuel cs
    match skipBlanks rest with
    | ']' :: rest => some ([d], rest)
    | ',' :: rest =>
      let (ds, rest) ← readItems fuel rest
      some (d :: ds, rest)
    | _ => none

/-- One or more members up to the closing brace. -/
def readMembers : Nat → List Char → Option (List (Option String × Document) × List Char)
  | 0, _ => none
  | fuel + 1, cs =>
    match skipBlanks cs with
    | '"' :: rest => do
      let (key, rest) ← readText rest
      match skipBlanks rest with
      | ':' :: rest =>
        let (d, rest) ← readValue fuel rest
        match skipBlanks rest with
        | '}' :: rest => some ([(key, d)], rest)
        | ',' :: rest =>
          let (ms, rest) ← readMembers fuel rest
          some ((key, d) :: ms, rest)
        | _ => none
      | _ => none
    | _ => none

end

/-- Brackets around nothing are an array without items. -/
theorem readValue_brackets (fuel : Nat) (rest : List Char) :
    readValue (fuel + 1) ('[' :: ']' :: rest) = some (.array [], rest) := by
  simp [readValue, skipBlanks, isBlank]

/-- Braces around nothing are an object without members. -/
theorem readValue_braces (fuel : Nat) (rest : List Char) :
    readValue (fuel + 1) ('\x7b' :: '\x7d' :: rest) = some (.object [], rest) := by
  simp [readValue, skipBlanks, isBlank]

/-- Reads a document from the whole of a text. -/
def read? (cs : List Char) : Option Document :=
  match readValue (cs.length + 1) cs with
  | some (d, rest) => if (skipBlanks rest).isEmpty then some d else none
  | none => none

/-! ## Judging documents -/

/-- The deepest nesting of arrays and objects that is accepted. -/
def maxNesting : Nat := 127

mutual

/-- The JSON value of a document nested at most `depth` deep, if all of it makes sense. -/
def toJson? : Nat → Document → Option Json
  | _, .null => some .null
  | _, .bool b => some (.bool b)
  | _, .number n => n.toJson?.map .number
  | _, .text s => s.map .text
  | 0, .array _ => none
  | depth + 1, .array ds => (toJsonItems? depth ds).map .array
  | 0, .object _ => none
  | depth + 1, .object ms => (toJsonMembers? depth ms).map Json.ofMembers

def toJsonItems? : Nat → List Document → Option (List Json)
  | _, [] => some []
  | depth, d :: ds => do
    let j ← toJson? depth d
    let js ← toJsonItems? depth ds
    some (j :: js)

def toJsonMembers? : Nat → List (Option String × Document) → Option (List (String × Json))
  | _, [] => some []
  | depth, (key, d) :: ms => do
    let k ← key
    let j ← toJson? depth d
    let js ← toJsonMembers? depth ms
    some ((k, j) :: js)

end

end Document

/-- Reads a JSON value from the whole of a text: members sorted by key, the last of a repeated key. -/
def Json.read? (s : String) : Option Json := (Document.read? s.toList).bind (Document.toJson? Document.maxNesting)

end LiveBindings
