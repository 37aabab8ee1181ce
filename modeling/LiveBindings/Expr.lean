import LiveBindings.Operators

/-!
# Expressions and targets

What a tree of nodes means once it is compiled. An `Expr` is observed: it has a value in a scope, and reports it again
whenever it changes. A `Target` is written to: it denotes a place, or a place seen through something that can be undone.
-/

namespace LiveBindings

/-- What is listed of an object. -/
inductive Projection
  | keys
  | values
  /-- Pairs of a key and its value. -/
  | items
deriving DecidableEq

/-- What is made of a collection by evaluating an expression once per element. -/
inductive PerElement
  /-- The results, in order. -/
  | map
  /-- The elements with a true result. -/
  | filter
  /-- Whether every result is true. -/
  | every
  /-- Whether some result is true. -/
  | some
  /-- The elements in the order of their results. -/
  | sorted
  /-- Pairs of a result and the elements that have it. -/
  | group
  /-- An object from the text of a result to the elements that have it. -/
  | groupMap
  /-- The first element with the least result. -/
  | least
  /-- The first element with the greatest result. -/
  | greatest
deriving DecidableEq

/-- What is made of a collection by moving its elements. -/
inductive Rearrangement
  /-- Pairs of an index and the element there. -/
  | enumerate
  | reversed
  /-- The elements of the elements. -/
  | flatten
deriving DecidableEq

/-- What is made of the numbers of a collection. -/
inductive Reduction
  | sum
  | mean
deriving DecidableEq

/-- A compiled expression. -/
inductive Expr
  | literal (v : Value)
  /-- The value in scope. -/
  | value
  /-- The parameters in scope. -/
  | parameters
  /-- The element registered under an id. -/
  | element (id : String)
  /-- The component registered under a label. -/
  | component (label : String)
  /-- An object whose entries follow the fields. -/
  | record (fields : List (String × Expr))
  /-- The property, item or length of a value under a key. -/
  | property (object key : Expr)
  /-- The body with the value of the context in scope. -/
  | within (context body : Expr)
  /-- One of two branches, by the truth of the condition. -/
  | choice (condition consequent alternate : Expr)
  | operator (f : OperatorFunction) (args : List Expr)
  | project (what : Projection) (object : Expr)
  | perElement (what : PerElement) (collection relation : Expr)
  | rearrange (what : Rearrangement) (collection : Expr)
  /-- The part of a collection from a start on and of a length. -/
  | window (collection start length : Expr)
  | reduce (what : Reduction) (collection : Expr)
  /-- Whether a collection has an element or key. -/
  | membership (collection member : Expr)
  /-- A list whose items follow the elements. -/
  | tuple (elements : List Expr)
  /-- The numbers from zero up to a length. -/
  | range (length : Expr)
  /-- Every reported value passed through a function. -/
  | mapped (f : OperatorFunction) (source : Expr)

instance : Inhabited Expr := ⟨.value⟩

/-- A compiled expression that can be written to. -/
inductive Target
  /-- The property or item of a value under a key. -/
  | property (object key : Expr)
  /-- The presence of an element or key in a collection. -/
  | membership (collection member : Expr)
  /-- A target behind an operator: what is written there is the operand found by its inverse. -/
  | inverse (f : Value → Value) (operand : Target)
  /-- A comparison: when it is to hold, the right side is written to the left one. -/
  | equals (left : Target) (right : Expr)
  /-- A target with the value of the context in scope. -/
  | within (context : Expr) (body : Target)

/-- What an expression is evaluated in. Elements and components are looked up as the entries of an object, if there is
one. -/
structure Scope where
  value : Value := .undefined
  parameters : Value := .undefined
  elements : Option ObjectId := none
  components : Option ObjectId := none
deriving DecidableEq, Inhabited

namespace Scope

/-- The scope with another value. -/
def nest (s : Scope) (value : Value) : Scope := { s with value }

/-- The diagnostic text of a scope. -/
def quoted (c : Contents) (s : Scope) : String :=
  let flag (b : Bool) : String := if b then "true" else "false"
  "Scope \x7b value: " ++ c.quoted s.value ++ ", parameters: " ++ c.quoted s.parameters
    ++ ", elements: " ++ flag s.elements.isSome ++ ", components: " ++ flag s.components.isSome ++ " \x7d"

end Scope

end LiveBindings
