import LiveBindings.Bindings
import LiveBindings.Script.Shown
import LiveBindings.Script.Step

/-!
# Sessions

What a script that runs has named so far, and the log of what it has seen. All that the engine calls back for is a `Hook`;
how often its steps may still be done is counted in the session.
-/

namespace LiveBindings.Script

/-- What a script does when it is called. -/
inductive Hook
  /-- Logs the call, then does the steps if the budget is not used up. -/
  | steps (name : String) (steps : List Step) (budget : Nat)
  /-- Repeats a content change in another list; a guarded hook does not while that list is itself telling of one. -/
  | follow (other : ListId) (guarded : Bool)

/-- Why a step failed. -/
inductive Failure
  | binding (e : BindError)
  | config (e : ConfigError)
  /-- An expression or descriptor makes no sense as it is written. -/
  | malformed
  | noOperator
  | noListener
  | noObserver
  | noBindings

/-- How many listeners there are before and after changes. -/
structure ListenerCount where
  before : Nat
  after : Nat

def ListenerCount.total (c : ListenerCount) : Nat := c.before + c.after

/-- What is said of a list. -/
structure ListInfo where
  length : Nat
  isActive : Bool
  content : ListenerCount
  items : ListenerCount
  lengths : ListenerCount

/-- What is said of an object. -/
structure ObjectInfo where
  keys : List String
  values : List Shown
  listeners : Nat

/-- What is said of a set of bindings. -/
structure BindingsInfo where
  targets : List Node
  target : Shown

/-- What a step comes to. -/
inductive Outcome
  | nothing
  | value (v : Shown)
  | values (vs : List Shown)
  /-- There is no value. -/
  | absent
  | flag (b : Bool)
  | place (index : Option Nat)
  | text (s : Option String)
  /-- The limit on nested dispatches that held before. -/
  | limit (n : Nat)
  | list (info : ListInfo)
  | object (info : ObjectInfo)
  | listeners (c : ListenerCount)
  /-- Whether a handle was cancelled before the step and after it. -/
  | cancelled (before after : Bool)
  | bindings (info : BindingsInfo)
  | failed (f : Failure)

/-- What a listener was told, as it was seen then. -/
inductive Told
  | content (added removed : List Shown) (index : Nat)
  | item (v : Shown) (index : Nat)
  | value (v : Shown)
  | entry (key : String) (v : Shown)

/-- A line of the log. -/
inductive LogEntry
  | heard (listener : String) (what : Told)
  | emitted (observer : String) (v : Shown)
  /-- One of the steps of a hook was done. -/
  | did (hook : String) (outcome : Outcome)
  | tornDown (handle : String)
  | started (child : String)

/-- Where a listener was registered. -/
structure Registration where
  kind : ListenerKind
  on : Value
  key : String
  id : ListenerId

/-- The state of a script that runs. -/
structure Session where
  vars : List (String × Value) := []
  /-- The last value of every observer that emitted one. -/
  emitted : List (String × Value) := []
  registrations : List (String × Registration) := []
  handles : List (String × Cancel Hook) := []
  slots : List (String × Ref .slot) := []
  /-- Slots that a step in progress works on. -/
  busySlots : List (Ref .slot) := []
  bindings : List (String × BindingSet Hook) := []
  /-- How many more times the steps of each hook may be done. -/
  budgets : Array Nat := #[]
  numbered : Array Container := #[]
  log : Array LogEntry := #[]

/-- A computation of a script. -/
abbrev Act := Live Hook Session

def modifySession (f : Session → Session) : Act Unit := modifyHost f

/-- A value as it is seen now. -/
def showOne (v : Value) : Act Shown := do
  let (shown, numbered) := Shown.one (← contents) (← host).numbered v
  modifySession fun s => { s with numbered }
  return shown

/-- Values as they are seen now, at once. -/
def showAll (vs : List Value) : Act (List Shown) := do
  let (shown, numbered) := Shown.all (← contents) (← host).numbered vs
  modifySession fun s => { s with numbered }
  return shown

def record (e : LogEntry) : Act Unit := modifySession fun s => { s with log := s.log.push e }

/-- Takes what was logged so far out of the log. -/
def takeLog : Act (List LogEntry) := do
  let log := (← host).log
  modifySession fun s => { s with log := #[] }
  return log.toList

/-- A hook for steps that may be done `times` times. -/
def newHook (name : String) (steps : List Step) (times : Nat) : Act Hook := do
  let budget := (← host).budgets.size
  modifySession fun s => { s with budgets := s.budgets.push times }
  return .steps name steps budget

/-- Uses one of the times that steps may still be done, if there is one left. -/
def spend (budget : Nat) : Act Bool := do
  let left := (← host).budgets.getD budget 0
  if left = 0 then return false
  modifySession fun s => { s with budgets := s.budgets.modify budget (· - 1) }
  return true

mutual

/-- The value of an operand. What is not there is `undefined`. -/
def Operand.eval : Operand → Act Value
  | .undefined => return .undefined
  | .null => return .null
  | .bool b => return .bool b
  | .number n => return .number n
  | .text s => return .text s
  | .list items => do
    let items ← evalAll items
    return .list (← ListId.create items)
  | .object entries => do
    let entries ← evalEntries entries
    return .object (← ObjectId.create (Fields.ofList entries))
  | .variable name => return (Fields.get? name (← host).vars).getD .undefined
  | .emitted observer => return (Fields.get? observer (← host).emitted).getD .undefined
  | .item list index => do
    match ← list.eval with
    | .list l => l.get index
    | _ => return .undefined
  | .entry object key => do
    match ← object.eval with
    | .object o => o.get key
    | _ => return .undefined

def evalAll : List Operand → Act (List Value)
  | [] => return []
  | x :: xs => do
    let v ← x.eval
    let vs ← evalAll xs
    return v :: vs

def evalEntries : List (String × Operand) → Act (List (String × Value))
  | [] => return []
  | (key, x) :: xs => do
    let v ← x.eval
    let vs ← evalEntries xs
    return (key, v) :: vs

end

/-- The value of an operand that may not be given. -/
def evalOption : Option Operand → Act Value
  | some x => x.eval
  | none => return .undefined

/-- The object that a registry looks names up in. -/
def evalRegistry : Option Operand → Act (Option ObjectId)
  | some x => do
    match ← x.eval with
    | .object o => return some o
    | _ => return none
  | none => return none

def Context.eval (c : Context) : Act Scope :=
  return { value := ← evalOption c.value, parameters := ← evalOption c.parameters
           elements := ← evalRegistry c.elements, components := ← evalRegistry c.components }

def Operators.table (o : Operators) : OperatorTable := OperatorTable.withAliases o.empty o.aliases

/-- The tree that an expression is written as: a text is a dotted path, anything else a node. -/
def readNode? : Document → Option Node
  | .text (some path) => some (Node.path path)
  | d => Node.ofDocument? Document.maxNesting d

end LiveBindings.Script
