import LiveBindings.Store.Contents

/-!
# Operators

Named functions on values. An operator with an inverse can also be written through: the inverse finds an operand for a
wanted result. A table of operators is open; `OperatorTable.standard` holds arithmetic, comparison, logic and texts.
-/

namespace LiveBindings

/-- What an operator computes from its operands. It may look at what containers hold. -/
abbrev OperatorFunction := Contents → List Value → Value

/-- An operator, with an inverse if it has one operand and can be undone. -/
structure Operator where
  apply : OperatorFunction
  inverse : Option (Value → Value) := none

/-- Operators by name. -/
structure OperatorTable where
  entries : List (String × Operator) := []

namespace OperatorTable

def get? (name : String) (t : OperatorTable) : Option Operator := Fields.get? name t.entries

/-- Adds an operator, replacing one of the same name. -/
def insert (name : String) (op : Operator) (t : OperatorTable) : OperatorTable := ⟨Fields.put name op t.entries⟩

def contains (name : String) (t : OperatorTable) : Bool := (t.get? name).isSome

def size (t : OperatorTable) : Nat := t.entries.length

/-- The names in ascending order. -/
def names (t : OperatorTable) : List String :=
  (t.entries.map (·.1)).mergeSort fun a b => Ord.compare a b != .gt

end OperatorTable

namespace Operator

/-- The operand at a place, `undefined` when it is missing. -/
def operand (args : List Value) (i : Nat) : Value := args.getD i .undefined

/-- The text of an operand that is joined to others: absent and null values have none. -/
def joinText (c : Contents) (v : Value) : String := if v.isNullish then "" else c.text v

def isText (v : Value) : Bool := v.asText.isSome

/-- The sum of the operands, or their joined texts as soon as one is a text. -/
def add (c : Contents) (args : List Value) : Value :=
  if args.any isText then .text (String.join (args.map (joinText c)))
  else .number (Number.sum (args.map Value.toNumber))

/-- An operator on two numbers. -/
def onNumbers (f : Number → Number → Number) : Operator where
  apply _ args := .number (f (operand args 0).toNumber (operand args 1).toNumber)

/-- How two operands compare: numbers as numbers, with NaN equal to all, other values in the order of values. -/
def compareOperands : Value → Value → Ordering
  | .number a, .number b => (a.numericCompare b).getD .eq
  | a, b => a.compare b

def isNaN (v : Value) : Bool := v.asNumber.any Number.isNaN

/-- An operator that tests how two operands compare; NaN passes no test. -/
def onOrder (test : Ordering → Bool) : Operator where
  apply _ args :=
    let a := operand args 0
    let b := operand args 1
    .bool (!(isNaN a || isNaN b) && test (compareOperands a b))

/-- The number of an ordering: `-1`, `0` or `1`. -/
def orderingNumber : Ordering → Number
  | .lt => Number.one.neg
  | .eq => .zero
  | .gt => .one

/-- An operator that tests two texts; anything else fails the test. -/
def onTexts (test : List Char → List Char → Bool) : Operator where
  apply _ args :=
    match operand args 0, operand args 1 with
    | .text a, .text b => .bool (test a.toList b.toList)
    | _, _ => .bool false

/-- Whether a text occurs inside another. -/
def occursIn (part : List Char) : List Char → Bool
  | [] => part.isEmpty
  | c :: cs => part.isPrefixOf (c :: cs) || occursIn part cs

/-- An operator on its first operand that does not look into containers. -/
def onFirst (f : Value → Value) : Operator where
  apply _ args := f (operand args 0)

/-- The operators of the standard table, by name. -/
def standard : List (String × Operator) := [
  ("not", { onFirst fun v => .bool !v.truthy with inverse := some fun v => .bool !v.truthy }),
  ("neg", { onFirst fun v => .number v.toNumber.neg with inverse := some fun v => .number v.toNumber.neg }),
  ("number", onFirst fun v => .number v.toNumber),
  ("string", { apply := fun c args => .text (joinText c (operand args 0)) }),
  ("add", { apply := add }),
  ("sub", onNumbers Number.sub),
  ("mul", onNumbers Number.mul),
  ("div", onNumbers Number.div),
  ("rem", onNumbers Number.rem),
  ("pow", onNumbers Number.pow),
  ("lessThan", onOrder Ordering.isLT),
  ("greaterThan", onOrder Ordering.isGT),
  ("lessThanOrEqual", onOrder Ordering.isLE),
  ("greaterThanOrEqual", onOrder Ordering.isGE),
  ("compare", { apply := fun _ args => .number (orderingNumber (compareOperands (operand args 0) (operand args 1))) }),
  ("equals", { apply := fun _ args => .bool ((operand args 0).same (operand args 1)) }),
  ("notEquals", { apply := fun _ args => .bool !((operand args 0).same (operand args 1)) }),
  ("and", { apply := fun _ args => .bool (args.all Value.truthy) }),
  ("or", { apply := fun _ args => .bool (args.any Value.truthy) }),
  ("default", { apply := fun _ args => (args.find? (!·.isNullish)).getD .undefined }),
  ("contains", onTexts fun s part => occursIn part s),
  ("startsWith", onTexts fun s start => start.isPrefixOf s),
  ("endsWith", onTexts fun s stop => stop.isSuffixOf s)]

end Operator

/-- The diagnostic text of an operator. -/
def Operator.quoted (op : Operator) : String :=
  "Operator \x7b invertible: " ++ (if op.inverse.isSome then "true" else "false") ++ " \x7d"

/-- The diagnostic text of a table. -/
def OperatorTable.quoted (t : OperatorTable) : String :=
  "OperatorTable \x7b operators: [" ++ ", ".intercalate (t.names.map Text.quoted) ++ "] \x7d"

/-- The standard operators. -/
def OperatorTable.standard : OperatorTable := ⟨Operator.standard⟩

/-- The standard table or an empty one, with standard operators added under further names. -/
def OperatorTable.withAliases (empty : Bool) (aliases : List (String × String)) : OperatorTable :=
  aliases.foldl (fun t a =>
      match OperatorTable.standard.get? a.2 with
      | some op => t.insert a.1 op
      | none => t)
    (if empty then {} else .standard)

end LiveBindings
