import LiveBindings.Script.Handles

/-!
# Observers and bindings of a script

An observer is stored under its name when its start is over. A set of bindings is out of reach of other steps while one
works on it.
-/

namespace LiveBindings.Script

/-! ## Reading what is written -/

/-- The trees of a list of arguments, if all make sense. -/
def readNodes (ds : List Document) : Except Failure (List Node) :=
  match ds.mapM readNode? with
  | some ns => .ok ns
  | none => .error .malformed

def readTree (d : Document) : Except Failure Node :=
  match readNode? d with
  | some n => .ok n
  | none => .error .malformed

/-- The function of a standard operator. -/
def readOperator (name : String) : Except Failure OperatorFunction :=
  match OperatorTable.standard.get? name with
  | some op => .ok op.apply
  | none => .error .noOperator

/-- The descriptor that is written. The source under an arrow may be a dotted path. -/
def WrittenDescriptor.read : WrittenDescriptor → Except Failure Descriptor
  | .compute operator args => do
    let f ← readOperator operator
    return .compute f (← readNodes args)
  | .arrow (.object [(some "<-", .text (some path))]) => .ok (.oneWay (Node.path path))
  | .arrow (.object [(some "<->", .text (some path))]) => .ok (.twoWay (Node.path path))
  | .arrow d =>
    match Descriptor.ofDocument? d with
    | some descriptor => .ok descriptor
    | none => .error .malformed

def readDefinitions : List (String × WrittenDescriptor) → Except Failure (List (String × Descriptor))
  | [] => .ok []
  | (path, d) :: defs => do
    let descriptor ← d.read
    return (path, descriptor) :: (← readDefinitions defs)

/-! ## Observers -/

/-- Compiles trees in order, up to the first that fails. -/
def compileWritten (t : OperatorTable) (ns : List Node) : Act (Except Failure (List Expr)) := do
  match ← (compileAll t ns).run with
  | .ok xs => return .ok xs
  | .error e => return .error (.binding (.compile e))

/-- The expression that an observer runs. -/
def Written.compile (t : OperatorTable) : Written → Act (Except Failure Expr)
  | .tree d => do
    match readTree d with
    | .error e => return .error e
    | .ok n => return (← compileWritten t [n]).map fun xs => xs.headD .value
  | .construct name args => do
    match Construct.named? name, readNodes args with
    | some c, .ok ns => return (← compileWritten t ns).map c.build
    | some _, .error e => return .error e
    | none, _ => return .error .noOperator

/-- The expression with a standard operator applied to every value. -/
def applyMapped (name : Option String) (x : Expr) : Except Failure Expr :=
  match name with
  | none => .ok x
  | some name => (readOperator name).map fun f => .mapped f x

/-- Starts an observer and stores its handle. -/
def observe (E : Engine Hook Session) (name : String) (what : Observation) (steps : List Step) (times : Nat) :
    Act Outcome := do
  match (← what.source.compile what.operators.table).bind (applyMapped what.mapped) with
  | .error e => return .failed e
  | .ok x =>
    let scope ← what.context.eval
    let user : Sink Hook := .user (← newHook name steps times)
    let sink ← if what.distinct then distinct user else pure user
    storeHandle E name (← E.start x sink scope)

/-! ## Bindings -/

/-- Stores a set of bindings under a name; the one that was there is taken down. -/
def storeBindings (E : Engine Hook Session) (name : String) (b : BindingSet Hook) : Act Outcome := do
  let old := Fields.get? name (← host).bindings
  modifySession fun s => { s with bindings := Fields.put name b s.bindings }
  if let some old := old then discard <| old.cancelAll E
  return .nothing

/-- The outcome of a definition. -/
def definitionOutcome : Option BindError → Outcome
  | none => .nothing
  | some e => .failed (.binding e)

/-- Works on the set of a name, which is out of reach meanwhile. -/
def onBindings (E : Engine Hook Session) (name : String)
    (act : BindingSet Hook → Act (Option (BindingSet Hook) × Outcome)) : Act Outcome := do
  match Fields.get? name (← host).bindings with
  | none => return .failed .noBindings
  | some b =>
    modifySession fun s => { s with bindings := Fields.erase name s.bindings }
    let (b, outcome) ← act b
    if let some b := b then discard <| storeBindings E name b
    return outcome

/-- Makes a set of bindings. -/
def makeBindings (E : Engine Hook Session) (name : String) (on : Operand) (context : Option Context)
    (parameters : Option Operand) (operators : Option Operators) : Act Outcome := do
  match BindingSet.ofValue (← on.eval) with
  | .error e => return .failed (.binding e)
  | .ok b =>
    let b ← match context with
      | some c => do pure (b.withScope (← c.eval))
      | none => pure b
    let b ← match parameters with
      | some x => do pure (b.withParameters (← x.eval))
      | none => pure b
    storeBindings E name (match operators with
      | some o => b.withOperators o.table
      | none => b)

/-- Makes a set of bindings and defines them all. -/
def createBindings (E : Engine Hook Session) (name : String) (on : Operand)
    (defs : List (String × WrittenDescriptor)) : Act Outcome := do
  match readDefinitions defs with
  | .error e => return .failed e
  | .ok defs =>
    match ← BindingSet.create E (← on.eval) defs with
    | .ok b => storeBindings E name b
    | .error e => return .failed (.binding e)

/-- Defines a binding. -/
def defineBinding (E : Engine Hook Session) (name : String) (target : Document) (descriptor : WrittenDescriptor) :
    Act Outcome :=
  onBindings E name fun b => do
    match readTree target, descriptor.read with
    | .ok target, .ok descriptor =>
      match ← (b.define E target descriptor).run with
      | .ok b => return (some b, .nothing)
      | .error e => return (some b, .failed (.binding e))
    | .error e, _ | _, .error e => return (some b, .failed e)

def defineBindings (E : Engine Hook Session) (name : String) (defs : List (String × WrittenDescriptor)) :
    Act Outcome :=
  onBindings E name fun b => do
    match readDefinitions defs with
    | .error e => return (some b, .failed e)
    | .ok defs =>
      let (b, failure) ← b.defineAll E defs
      return (some b, definitionOutcome failure)

/-- What is said of a set. -/
def BindingsInfo.ofSet (b : BindingSet Hook) : Act BindingsInfo :=
  return { targets := b.targets, target := ← showOne (.object b.target) }

end LiveBindings.Script
