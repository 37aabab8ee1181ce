import LiveBindings.Number.Decimal

/-!
# JSON values

The values that literals of an expression carry. Members of an object are kept in ascending order of their keys, one per
key. Numbers keep the form in which they were written: whole numbers of either sign and fractions are told apart.
-/

namespace LiveBindings

/-- A JSON number: a natural number below `2 ^ 64`, a negative integer from `-2 ^ 63` on, or a double. -/
inductive JsonNumber
  | natural (n : Nat)
  | negative (n : Nat)
  | float (x : Number)
deriving DecidableEq, Inhabited

/-- A JSON value. -/
inductive Json
  | null
  | bool (b : Bool)
  | number (n : JsonNumber)
  | text (s : String)
  | array (items : List Json)
  | object (members : List (String × Json))
deriving Inhabited

namespace JsonNumber

/-- The double nearest to a JSON number. -/
def toNumber : JsonNumber → Number
  | natural n => Number.ofNat n
  | negative n => Number.ofInt (-(n : Int))
  | float x => x

/-- Equality of the same form; two doubles are compared as numbers. -/
def equal : JsonNumber → JsonNumber → Bool
  | natural a, natural b => a == b
  | negative a, negative b => a == b
  | float a, float b => a.numericEq b
  | _, _ => false

end JsonNumber

namespace Json

/-- Puts a member in its place by key; a member with the same key is replaced. -/
def insertMember (key : String) (value : Json) : List (String × Json) → List (String × Json)
  | [] => [(key, value)]
  | (k, v) :: rest =>
    match Ord.compare key k with
    | .lt => (key, value) :: (k, v) :: rest
    | .eq => (key, value) :: rest
    | .gt => (k, v) :: insertMember key value rest

/-- The object with the given members; of several with one key the last counts. -/
def ofMembers (members : List (String × Json)) : Json :=
  object (members.foldl (fun acc m => insertMember m.1 m.2 acc) [])

mutual

/-- Equality of values; numbers are equal only in the same form. -/
def equal : Json → Json → Bool
  | null, null => true
  | bool a, bool b => a == b
  | number a, number b => a.equal b
  | text a, text b => a == b
  | array a, array b => equalItems a b
  | object a, object b => equalMembers a b
  | _, _ => false

def equalItems : List Json → List Json → Bool
  | [], [] => true
  | a :: as, b :: bs => equal a b && equalItems as bs
  | _, _ => false

def equalMembers : List (String × Json) → List (String × Json) → Bool
  | [], [] => true
  | (j, a) :: as, (k, b) :: bs => j == k && equal a b && equalMembers as bs
  | _, _ => false

end

end Json

end LiveBindings
