import LiveBindings.Compile
import LiveBindings.Node.Wire
import LiveBindings.Observe.Bind

/-!
# Bindings

A set of bindings keeps places of one object fed from expressions: one way, both ways, or through a function. Each binding
writes its first value while it is being defined. A binding whose definition fails is not installed, and bindings are
taken down in the reverse order of their definition.
-/

namespace LiveBindings

/-- How a target is fed. -/
inductive Descriptor
  | oneWay (source : Node)
  /-- The source is also written to when the target changes. -/
  | twoWay (source : Node)
  | compute (f : OperatorFunction) (args : List Node)

/-- Reads a descriptor: an object whose only member is `<-` or `<->`, with the source as its content. -/
def Descriptor.ofDocument? : Document → Option Descriptor
  | .object [(some arrow, d)] =>
    if arrow = "<-" then (Node.ofDocument? (Document.maxNesting - 1) d).map oneWay
    else if arrow = "<->" then (Node.ofDocument? (Document.maxNesting - 1) d).map twoWay
    else none
  | _ => none

/-- Reads a descriptor from the whole of a text. -/
def Descriptor.read? (s : String) : Option Descriptor := (Document.read? s.toList).bind ofDocument?

/-- The bindings defined on one object, in the order of definition. -/
structure BindingSet (π : Type) where
  target : ObjectId
  scope : Scope
  operators : OperatorTable := .standard
  installed : List (Node × Cancel π) := []

namespace BindingSet

variable {π σ : Type}

/-- No bindings on an object, which is also the value in scope. -/
def ofObject (o : ObjectId) : BindingSet π where
  target := o
  scope := { value := .object o }

/-- No bindings on a value, which has to be an object. -/
def ofValue : Value → Except BindError (BindingSet π)
  | .object o => .ok (ofObject o)
  | v => .error (.unobservable v.kind none)

/-- Evaluates both sides of every binding in a scope, except that the value stays the target. -/
def withScope (scope : Scope) (b : BindingSet π) : BindingSet π := { b with scope := scope.nest (.object b.target) }

def withParameters (v : Value) (b : BindingSet π) : BindingSet π := { b with scope := { b.scope with parameters := v } }

def withOperators (t : OperatorTable) (b : BindingSet π) : BindingSet π := { b with operators := t }

/-- The target nodes of the installed bindings. -/
def targets (b : BindingSet π) : List Node := b.installed.map (·.1)

/-- Starts a binding that follows an expression. -/
def bindOneWay (E : Engine π σ) (b : BindingSet π) (target : Node) (source : Expr) :
    Binding (Callback π) (Env π σ) (Cancel π) := do
  let place ← compileTarget b.operators target
  ExceptT.lift (place.bind E (.observe source b.scope) b.scope)

/-- Starts a binding in both directions. The first value goes from the source to the target. While a value is being passed
on in one direction, none is passed on in the other. -/
def bindTwoWay (E : Engine π σ) (b : BindingSet π) (target source : Node) :
    Binding (Callback π) (Env π σ) (Cancel π) := do
  let forward ← compileTarget b.operators target
  let backward ← compileTarget b.operators source
  let sourceValue ← observed (compile b.operators source)
  let targetValue ← observed (compile b.operators target)
  ExceptT.lift do
    let syncing ← newFlag
    let ready ← newFlag
    let there ← forward.bind E (.guarded sourceValue b.scope syncing none) b.scope
    let back ← backward.bind E (.guarded targetValue b.scope syncing (some ready)) b.scope
    setFlag ready true
    return .join [back, there]

/-- Compiles both sides of a binding and starts it. -/
def bind (E : Engine π σ) (b : BindingSet π) (target : Node) :
    Descriptor → Binding (Callback π) (Env π σ) (Cancel π)
  | .oneWay source => do
    let x ← observed (compile b.operators source)
    bindOneWay E b target x
  | .compute f args => do
    let xs ← observed (compileAll b.operators args)
    bindOneWay E b target (.operator f xs)
  | .twoWay source => bindTwoWay E b target source

/-- Defines a binding. -/
def define (E : Engine π σ) (b : BindingSet π) (target : Node) (d : Descriptor) :
    Binding (Callback π) (Env π σ) (BindingSet π) := do
  let handle ← b.bind E target d
  return { b with installed := b.installed ++ [(target, handle)] }

/-- Defines bindings of dotted paths in order, up to the first that fails. -/
def defineAll (E : Engine π σ) (b : BindingSet π) :
    List (String × Descriptor) → Live π σ (BindingSet π × Option BindError)
  | [] => return (b, none)
  | (path, d) :: defs => do
    match ← (b.define E (Node.path path) d).run with
    | .ok b => b.defineAll E defs
    | .error e => return (b, some e)

/-- Takes down handles one after the other. -/
def cancelInTurn (E : Engine π σ) : List (Cancel π) → Live π σ Unit
  | [] => pure ()
  | handle :: handles => do
    E.cancel handle
    cancelInTurn E handles

/-- Takes down all bindings, the last one first. -/
def cancelAll (E : Engine π σ) (b : BindingSet π) : Live π σ (BindingSet π) := do
  cancelInTurn E (b.installed.map (·.2)).reverse
  return { b with installed := [] }

/-- Defines bindings on a new set; when one fails those before it are taken down. -/
def create (E : Engine π σ) (target : Value) (defs : List (String × Descriptor)) :
    Live π σ (Except BindError (BindingSet π)) := do
  match BindingSet.ofValue target with
  | .error e => return .error e
  | .ok b =>
    match ← b.defineAll E defs with
    | (b, none) => return .ok b
    | (b, some e) =>
      discard <| b.cancelAll E
      return .error e

/-- The diagnostic text of a set. -/
def quoted (c : Contents) (b : BindingSet π) : String :=
  "Bindings \x7b target: " ++ c.quoted (.object b.target) ++ ", bindings: " ++ Number.natText b.installed.length
    ++ " \x7d"

end BindingSet

end LiveBindings
