import LiveBindings.Toml
import LiveBindings.Number.Decimal

/-!
# Reading TOML

`Toml.read?` reads a whole document into its top table, or refuses it. The readers of the grammar take the text from
their position on and return what they read with the rest.
-/

namespace LiveBindings.Toml

/-- A reader: what was read and the rest, or nothing when the text does not fit. -/
abbrev Reader (α : Type) := List Char → Option (α × List Char)

def isSpace (c : Char) : Bool := c = ' ' || c = '\t'

def skipSpaces (cs : List Char) : List Char := cs.dropWhile isSpace

/-- Characters that may stand in a comment or, but for its quotes, in a text on one line. -/
def isPlain (c : Char) : Bool := c = '\t' || (0x20 ≤ c.toNat && c.toNat ≠ 0x7F)

/-- The rest after the end of a line. -/
def newline? : List Char → Option (List Char)
  | '\n' :: cs => some cs
  | '\r' :: '\n' :: cs => some cs
  | _ => none

/-- Skips a comment, if there is one. -/
def skipComment : List Char → List Char
  | '#' :: cs => cs.dropWhile isPlain
  | cs => cs

/-- Skips spaces, comments and ends of lines; `fuel` bounds the number of lines. -/
def skipLines : Nat → List Char → List Char
  | 0, cs => cs
  | fuel + 1, cs =>
    let rest := skipComment (skipSpaces cs)
    match newline? rest with
    | some rest => skipLines fuel rest
    | none => rest

/-! ## Texts -/

def hexValue? (c : Char) : Option Nat :=
  if '0' ≤ c && c ≤ '9' then some (c.toNat - '0'.toNat)
  else if 'a' ≤ c && c ≤ 'f' then some (c.toNat - 'a'.toNat + 10)
  else if 'A' ≤ c && c ≤ 'F' then some (c.toNat - 'A'.toNat + 10)
  else none

/-- The character of `count` hexadecimal digits. -/
def hexChar (count : Nat) : Reader Char := fun cs => do
  if cs.length < count then none
  let n ← (cs.take count).foldlM (fun n c => do some (n * 16 + (← hexValue? c))) 0
  if h : n.isValidChar then some (Char.ofNatAux n h, cs.drop count) else none

/-- The character of an escape, after the backslash. -/
def escape : Reader Char
  | 'b' :: cs => some ('\x08', cs)
  | 't' :: cs => some ('\t', cs)
  | 'n' :: cs => some ('\n', cs)
  | 'f' :: cs => some ('\x0c', cs)
  | 'r' :: cs => some ('\r', cs)
  | '"' :: cs => some ('"', cs)
  | '\\' :: cs => some ('\\', cs)
  | 'u' :: cs => hexChar 4 cs
  | 'U' :: cs => hexChar 8 cs
  | _ => none

/-- A text in double quotes after the opening one. -/
def basicText : Nat → Reader (List Char)
  | 0, _ => none
  | fuel + 1, cs =>
    match cs with
    | '"' :: rest => some ([], rest)
    | '\\' :: rest => do
      let (c, rest) ← escape rest
      let (s, rest) ← basicText fuel rest
      some (c :: s, rest)
    | c :: rest => do
      if !isPlain c then none
      let (s, rest) ← basicText fuel rest
      some (c :: s, rest)
    | [] => none

/-- A text in single quotes after the opening one. -/
def literalText (cs : List Char) : Option (List Char × List Char) :=
  let s := cs.takeWhile fun c => isPlain c && c != '\''
  match cs.drop s.length with
  | '\'' :: rest => some (s, rest)
  | _ => none

/-- The closing quotes of a text over several lines; up to two more quotes before them belong to the text. -/
def closing? (q : Char) (cs : List Char) : Option (List Char × List Char) :=
  let n := (cs.takeWhile (· == q)).length
  if n < 3 then none
  else
    let extra := min (n - 3) 2
    some (List.replicate extra q, cs.drop (extra + 3))

/-- Blanks and ends of lines after a backslash at the end of a line. -/
def skipFold : List Char → List Char
  | [] => []
  | '\n' :: cs => skipFold cs
  | '\r' :: '\n' :: cs => skipFold cs
  | c :: cs => if isSpace c then skipFold cs else c :: cs

/-- A text in three double quotes after the opening ones. -/
def basicLines : Nat → Reader (List Char)
  | 0, _ => none
  | fuel + 1, cs =>
    match closing? '"' cs with
    | some r => some r
    | none =>
      match cs with
      | '\\' :: rest =>
        match newline? (skipSpaces rest) with
        | some rest => basicLines fuel (skipFold rest)
        | none => do
          let (c, rest) ← escape rest
          let (s, rest) ← basicLines fuel rest
          some (c :: s, rest)
      | c :: rest =>
        match newline? (c :: rest) with
        | some rest => do
          let (s, rest) ← basicLines fuel rest
          some ('\n' :: s, rest)
        | none => do
          if !isPlain c then none
          let (s, rest) ← basicLines fuel rest
          some (c :: s, rest)
      | [] => none

/-- A text in three single quotes after the opening ones. -/
def literalLines : Nat → Reader (List Char)
  | 0, _ => none
  | fuel + 1, cs =>
    match closing? '\'' cs with
    | some r => some r
    | none =>
      match cs with
      | c :: rest =>
        match newline? (c :: rest) with
        | some rest => do
          let (s, rest) ← literalLines fuel rest
          some ('\n' :: s, rest)
        | none => do
          if !isPlain c then none
          let (s, rest) ← literalLines fuel rest
          some (c :: s, rest)
      | [] => none

/-- The end of a line right after the opening quotes does not belong to the text. -/
def dropFirstNewline (cs : List Char) : List Char := (newline? cs).getD cs

/-- A text of any of the four forms. -/
def text : Reader String := fun cs =>
  let fuel := cs.length + 1
  let read : Option (List Char × List Char) := match cs with
    | '"' :: '"' :: '"' :: rest => basicLines fuel (dropFirstNewline rest)
    | '"' :: rest => basicText fuel rest
    | '\'' :: '\'' :: '\'' :: rest => literalLines fuel (dropFirstNewline rest)
    | '\'' :: rest => literalText rest
    | _ => none
  read.map fun (s, rest) => (String.ofList s, rest)

/-! ## Keys -/

def isBareKey (c : Char) : Bool := c.isAlphanum || c = '_' || c = '-'

/-- One segment of a key: bare or a text on one line. -/
def simpleKey : Reader String := fun cs =>
  match cs with
  | '"' :: rest => (basicText (rest.length + 1) rest).map fun (s, rest) => (String.ofList s, rest)
  | '\'' :: rest => (literalText rest).map fun (s, rest) => (String.ofList s, rest)
  | _ =>
    let s := cs.takeWhile isBareKey
    if s.isEmpty then none else some (String.ofList s, cs.drop s.length)

/-- A key of one or more segments with points between them. -/
def key : Nat → Reader (List String)
  | 0, _ => none
  | fuel + 1, cs => do
    let (s, rest) ← simpleKey (skipSpaces cs)
    match skipSpaces rest with
    | '.' :: rest =>
      let (ss, rest) ← key fuel rest
      some (s :: ss, rest)
    | rest => some ([s], rest)

/-! ## Scalars -/

/-- Whether digits are well grouped: every underscore stands between two digits. -/
def grouped (isDigit : Char → Bool) : List Char → Bool
  | [] => false
  | [c] => isDigit c
  | c :: '_' :: rest => isDigit c && grouped isDigit rest
  | c :: rest => isDigit c && grouped isDigit rest

/-- The value of grouped digits in a base. -/
def groupedValue (base : Nat) (cs : List Char) : Nat :=
  cs.foldl (fun n c => if c = '_' then n else n * base + (hexValue? c).getD 0) 0

/-- An integer of sixty-four bits. -/
def inRange (n : Int) : Bool := decide (-Int.pow 2 63 ≤ n) && decide (n < Int.pow 2 63)

def isHexDigit (c : Char) : Bool := (hexValue? c).isSome
def isOctDigit (c : Char) : Bool := '0' ≤ c && c ≤ '7'
def isBinDigit (c : Char) : Bool := c = '0' || c = '1'

/-- Digits in base ten without a leading zero. -/
def isDecimal (cs : List Char) : Bool :=
  grouped Char.isDigit cs && (cs.head? != some '0' || cs.length == 1)

/-- A sign and what follows it. -/
def splitSign : List Char → Option Bool × List Char
  | '-' :: cs => (some true, cs)
  | '+' :: cs => (some false, cs)
  | cs => (none, cs)

/-- An integer in one of the four bases; only base ten takes a sign. -/
def integer? (cs : List Char) : Option Int :=
  let (sign, digits) := splitSign cs
  let value? : Option Int :=
    match sign, digits with
    | none, '0' :: 'x' :: ds => if grouped isHexDigit ds then some (groupedValue 16 ds : Nat) else none
    | none, '0' :: 'o' :: ds => if grouped isOctDigit ds then some (groupedValue 8 ds : Nat) else none
    | none, '0' :: 'b' :: ds => if grouped isBinDigit ds then some (groupedValue 2 ds : Nat) else none
    | _, ds =>
      if isDecimal ds then
        let n : Int := (groupedValue 10 ds : Nat)
        some (if sign = some true then -n else n)
      else none
  value?.filter inRange

/-- Whether the word is a float: whole digits with a fraction, an exponent or both, or a special value. -/
def isFloat (cs : List Char) : Bool :=
  let (_, cs) := splitSign cs
  if cs = "inf".toList || cs = "nan".toList then true
  else
    let whole := cs.takeWhile fun c => c.isDigit || c = '_'
    let rest := cs.drop whole.length
    let exponent (cs : List Char) : Bool :=
      match cs with
      | c :: cs => (c = 'e' || c = 'E') && grouped Char.isDigit (splitSign cs).2
      | [] => false
    isDecimal whole &&
      match rest with
      | '.' :: rest =>
        let fraction := rest.takeWhile fun c => c.isDigit || c = '_'
        let rest := rest.drop fraction.length
        grouped Char.isDigit fraction && (rest.isEmpty || exponent rest)
      | rest => exponent rest

/-- A number of exactly `count` digits between two bounds. -/
def field (count low high : Nat) : Reader Nat := fun cs =>
  let ds := cs.take count
  if ds.length = count && ds.all Char.isDigit then
    let n := Number.digitsValue 0 ds
    if low ≤ n && n ≤ high then some (n, cs.drop count) else none
  else none

def char (c : Char) : Reader Unit
  | d :: cs => if c = d then some ((), cs) else none
  | [] => none

/-- The number of days of a month. -/
def daysIn (year month : Nat) : Nat :=
  if month = 2 then (if year % 4 = 0 && (year % 100 ≠ 0 || year % 400 = 0) then 29 else 28)
  else if month = 4 || month = 6 || month = 9 || month = 11 then 30
  else 31

def date : Reader Unit := fun cs => do
  let (year, cs) ← field 4 0 9999 cs
  let ((), cs) ← char '-' cs
  let (month, cs) ← field 2 1 12 cs
  let ((), cs) ← char '-' cs
  let (_, cs) ← field 2 1 (daysIn year month) cs
  some ((), cs)

def clock : Reader Unit := fun cs => do
  let (_, cs) ← field 2 0 23 cs
  let ((), cs) ← char ':' cs
  let (_, cs) ← field 2 0 59 cs
  let ((), cs) ← char ':' cs
  let (_, cs) ← field 2 0 60 cs
  match cs with
  | '.' :: rest =>
    let ds := rest.takeWhile Char.isDigit
    if ds.isEmpty then none else some ((), rest.drop ds.length)
  | cs => some ((), cs)

/-- The offset after a clock, if there is one. -/
def offset : Reader Unit
  | 'Z' :: cs => some ((), cs)
  | 'z' :: cs => some ((), cs)
  | c :: cs =>
    if c = '+' || c = '-' then do
      let (_, cs) ← field 2 0 23 cs
      let ((), cs) ← char ':' cs
      let (_, cs) ← field 2 0 59 cs
      some ((), cs)
    else some ((), c :: cs)
  | [] => some ((), [])

/-- A date, a clock, or both with an optional offset. -/
def time : Reader Unit := fun cs =>
  match date cs with
  | some ((), rest) =>
    match rest with
    | c :: after =>
      if c = 'T' || c = 't' then do
        let ((), rest) ← clock after
        offset rest
      else if c = ' ' then
        match clock after with
        | some ((), rest) => offset rest
        | none => some ((), rest)
      else some ((), rest)
    | [] => some ((), [])
  | none => clock cs

/-- A scalar that is not a text. The word is all that can belong to one. -/
def word : Reader Scalar := fun cs =>
  match time cs with
  | some ((), rest) => some (.time, rest)
  | none =>
    let w := cs.takeWhile fun c => c.isAlphanum || c = '_' || c = '+' || c = '-' || c = '.'
    let rest := cs.drop w.length
    if w = "true".toList || w = "false".toList then some (.boolean, rest)
    else match integer? w with
      | some n => some (.integer n, rest)
      | none => if isFloat w then some (.float, rest) else none

/-! ## Values -/

mutual

/-- A value; `fuel` bounds the nesting and the number of elements. -/
def value : Nat → Reader Item
  | 0, _ => none
  | fuel + 1, cs =>
    match cs with
    | '[' :: rest => (arrayItems fuel rest).map fun (items, rest) => (.array items, rest)
    | '{' :: rest =>
      match skipSpaces rest with
      | '}' :: rest => some (.table .inline [], rest)
      | rest => (inlineEntries fuel [] rest).map fun (es, rest) => (.table .inline es, rest)
    | _ =>
      match text cs with
      | some (s, rest) => some (.scalar (.text s), rest)
      | none => (word cs).map fun (s, rest) => (.scalar s, rest)

/-- The elements of an array up to its closing bracket. -/
def arrayItems : Nat → Reader (List Item)
  | 0, _ => none
  | fuel + 1, cs =>
    match skipLines (cs.length + 1) cs with
    | ']' :: rest => some ([], rest)
    | cs => do
      let (item, rest) ← value fuel cs
      match skipLines (rest.length + 1) rest with
      | ']' :: rest => some ([item], rest)
      | ',' :: rest =>
        let (items, rest) ← arrayItems fuel rest
        some (item :: items, rest)
      | _ => none

/-- The entries of an inline table up to its closing brace. -/
def inlineEntries : Nat → Entries → Reader Entries
  | 0, _, _ => none
  | fuel + 1, es, cs => do
    let (path, rest) ← key (cs.length + 1) cs
    let ((), rest) ← char '=' rest
    let (item, rest) ← value fuel (skipSpaces rest)
    let es ← insert item path es
    match skipSpaces rest with
    | '}' :: rest => some (es, rest)
    | ',' :: rest => inlineEntries fuel es rest
    | _ => none

end

/-! ## Documents -/

/-- The rest after the end of a line, with spaces and a comment before it; the end of the text ends a line. -/
def endLine? (cs : List Char) : Option (List Char) :=
  match skipComment (skipSpaces cs) with
  | [] => some []
  | rest => newline? rest

/-- The path of a header after its opening brackets. -/
def headerPath (cs : List Char) : Option (List String × List Char) := key (cs.length + 1) cs

/-- Reads line after line: a header changes the table that the following keys belong to. `fuel` bounds the lines. -/
def lines : Nat → List String → Entries → List Char → Option Entries
  | 0, _, _, _ => none
  | fuel + 1, current, es, cs =>
    match skipSpaces cs with
    | [] => some es
    | '[' :: '[' :: rest => do
      let (path, rest) ← headerPath rest
      match rest with
      | ']' :: ']' :: rest =>
        let last ← path.getLast?
        let es ← within path.dropLast (openNext last) es
        lines fuel path es (← endLine? rest)
      | _ => none
    | '[' :: rest => do
      let (path, rest) ← headerPath rest
      match rest with
      | ']' :: rest =>
        let last ← path.getLast?
        let es ← within path.dropLast (openTable last) es
        lines fuel path es (← endLine? rest)
      | _ => none
    | c :: rest =>
      if c = '#' || c = '\n' || c = '\r' then do
        lines fuel current es (← endLine? (c :: rest))
      else do
        let (path, rest) ← key ((c :: rest).length + 1) (c :: rest)
        let ((), rest) ← char '=' rest
        let (item, rest) ← value (rest.length + 1) (skipSpaces rest)
        let es ← within current (insert item path) es
        lines fuel current es (← endLine? rest)

/-- Reads a document; a byte order mark in front is skipped. -/
def read? (s : String) : Option Entries :=
  let cs := match s.toList with
    | c :: cs => if c.toNat = 0xFEFF then cs else c :: cs
    | [] => []
  lines (cs.length + 1) [] [] cs

end LiveBindings.Toml
