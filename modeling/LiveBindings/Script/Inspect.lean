import LiveBindings.Script.Run

/-!
# Single questions

What is said of one value, of several in relation to each other, or of an operator and its operands, outside any script.
Each question is put in a world of its own, in which the given variables are bound first.
-/

namespace LiveBindings.Script

/-- Binds variables and runs an action in a world of its own. -/
def ask {α : Type} (vars : List (String × Operand)) (act : Act α) : Except Fault α :=
  runAlone do
    bindVariables vars
    act

/-- What can be said of a value. -/
structure Inspection where
  value : Value
  listLength : Option Nat
  objectLength : Option Nat
  text : String
  /-- The value after it went through its JSON form. -/
  json : Shown
  shown : Shown

/-- The value that comes back from its JSON form. -/
def throughJson (v : Value) : Act Value := do fromJson ((← contents).toJson v)

def inspect (x : Operand) : Act Inspection := do
  let v ← x.eval
  let listLength ← match v with
    | .list l => some <$> l.length
    | _ => pure none
  let objectLength ← match v with
    | .object o => some <$> o.length
    | _ => pure none
  let text := (← contents).text v
  let json ← showOne (← throughJson v)
  let shown ← showOne v
  return { value := v, listLength, objectLength, text, json, shown }

/-- The diagnostic text of a value. -/
def quote (x : Operand) : Act String := do
  let v ← x.eval
  return (← contents).quoted v

/-- A JSON text as a value, if it is one. -/
def showJson (text : String) : Act (Option Shown) := do
  match Json.read? text with
  | some j => return some (← showOne (← fromJson j))
  | none => return none

/-- A relation among values, row by row. -/
def matrix {α : Type} (relation : Value → Value → α) (vs : List Value) : List (List α) :=
  vs.map fun a => vs.map (relation a)

/-- The results of an operator and, if it has one and there is an operand, of its inverse on the first operand. -/
structure Application where
  result : Shown
  inverse : Option Shown

/-- Applies a standard operator. -/
def applyOperator (name : String) (args : List Operand) : Act (Except Failure Application) := do
  match OperatorTable.standard.get? name with
  | none => return .error .noOperator
  | some op =>
    let args ← evalAll args
    let result ← showOne (op.apply (← contents) args)
    let inverse ← match op.inverse, args with
      | some f, v :: _ => some <$> showOne (f v)
      | _, _ => pure none
    return .ok { result, inverse }

/-- What the two ways of compiling an expression come to. -/
structure Compilation where
  observer : Option CompileError
  target : Option BindError

/-- Compiles an expression to be observed and to be written to. -/
def compileBoth (t : OperatorTable) (n : Node) : Act Compilation := do
  let observer : Option CompileError := match ← (compile t n).run with
    | .ok _ => none
    | .error e => some e
  let target : Option BindError := match ← (compileTarget t n).run with
    | .ok _ => none
    | .error e => some e
  return { observer, target }

end LiveBindings.Script
