import LiveBindings.Number.Decimal
import LiveBindings.Text.Quoted

/-!
# Values

A value is a scalar, compared by its content, or the identity of a shared list or object, compared by that identity. This
module holds what can be said of a value without looking into containers: its kind, its readings as a truth value, a
number or an index, and the relations `same` and `compare`.
-/

namespace LiveBindings

/-- The identity of a shared list. -/
structure ListId where
  index : Nat
deriving DecidableEq, Inhabited

/-- The identity of a shared object. -/
structure ObjectId where
  index : Nat
deriving DecidableEq, Inhabited

/-- A value. `undefined` stands for what is absent and is the value of a property that does not exist. -/
inductive Value
  | undefined
  | null
  | bool (b : Bool)
  | number (n : Number)
  | text (s : String)
  | list (l : ListId)
  | object (o : ObjectId)
deriving DecidableEq, Inhabited

/-- The kinds of values, in the order in which `Value.compare` puts them. -/
inductive Kind
  | undefined
  | null
  | bool
  | number
  | text
  | list
  | object
deriving DecidableEq

namespace Kind

/-- The name of a kind in messages. -/
def name : Kind → String
  | undefined => "undefined"
  | null => "null"
  | bool => "bool"
  | number => "number"
  | text => "string"
  | list => "list"
  | object => "object"

/-- The place of a kind in the order of values. -/
def rank : Kind → Nat
  | undefined => 0
  | null => 1
  | bool => 2
  | number => 3
  | text => 4
  | list => 5
  | object => 6

end Kind

/-- The largest index or count. -/
def maxIndex : Nat := Nat.pow 2 64 - 1

namespace Value

def kind : Value → Kind
  | undefined => .undefined
  | null => .null
  | bool _ => .bool
  | number _ => .number
  | text _ => .text
  | list _ => .list
  | object _ => .object

/-- The number nearest to a count. -/
def ofNat (n : Nat) : Value := number (Number.ofNat n)

def isUndefined (v : Value) : Bool := v == undefined

/-- Whether the value is absent or null. -/
def isNullish : Value → Bool
  | undefined | null => true
  | _ => false

/-- The truth of a value: absent and null values, `false`, both zeros, NaN and the empty text are false. -/
def truthy : Value → Bool
  | undefined | null => false
  | bool b => b
  | number n => !n.isZero && !n.isNaN
  | text s => !s.isEmpty
  | list _ | object _ => true

def asNumber : Value → Option Number
  | number n => some n
  | _ => none

def asText : Value → Option String
  | text s => some s
  | _ => none

/-- The number a value is read as. A text is trimmed and read; the blank text is zero. -/
def toNumber : Value → Number
  | number n => n
  | bool b => if b then .one else .zero
  | null => .zero
  | text s =>
    let trimmed := Text.trim s.toList
    if trimmed.isEmpty then .zero else (Number.read? (String.ofList trimmed)).getD .nan
  | undefined | list _ | object _ => .nan

/-- The index spelled by a text: decimal digits with an optional plus sign. -/
def readIndex? (s : String) : Option Nat :=
  let digits := match s.toList with
    | '+' :: cs => cs
    | cs => cs
  if digits.isEmpty || !digits.all Char.isDigit then none
  else
    let n := Number.digitsValue 0 digits
    if n ≤ maxIndex then some n else none

/-- The list index a value denotes: a whole number that is not negative, or the text of one. -/
def asIndex : Value → Option Nat
  | number n => if n.isWhole && (!n.negative || n.isZero) then some (min n.wholePart maxIndex) else none
  | text s => readIndex? s
  | _ => none

/-- Equality of values as numbers are compared: the zeros are equal and NaN differs from itself. -/
def numericEq : Value → Value → Bool
  | number a, number b => a.numericEq b
  | a, b => a == b

/-- Whether two values cannot be told apart by an update: scalars by content, with NaN the same as NaN and the zeros the
same, containers by identity. -/
def same : Value → Value → Bool
  | number a, number b => a.same b
  | a, b => a == b

/-- The order used by sorting and by least and greatest elements. Kinds are ordered first; containers of one kind are
equal. -/
def compare : Value → Value → Ordering
  | bool a, bool b => Ord.compare a b
  | number a, number b => a.totalCompare b
  | text a, text b => Ord.compare a b
  | a, b => Ord.compare a.kind.rank b.kind.rank

/-- Whether some element is the same as the value. -/
def memberOf (v : Value) (items : List Value) : Bool := items.any (·.same v)

end Value

end LiveBindings
