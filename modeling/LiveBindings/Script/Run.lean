import LiveBindings.Observe.Fire
import LiveBindings.Script.Containers
import LiveBindings.Script.Observations

/-!
# Running a script

Every step comes to an outcome and leaves a log of what was seen while it ran. A step that is abandoned ends the script;
what it changed before stays.
-/

namespace LiveBindings.Script

/-- The diagnostic text of the scope that a context stands for. -/
def quoteContext (context : Context) : Act Outcome := do
  let scope ← context.eval
  return .text (some (scope.quoted (← contents)))

/-- Replaces the configuration. -/
def configure (text : String) : Act Outcome := do
  match Config.read text with
  | .error e => return .failed (.config e)
  | .ok config =>
    let old := (← get).config
    modify fun w => { w with config }
    return .limit old.maxDispatchDepth

mutual

/-- Does a step. -/
def Step.run (E : Engine Hook Session) : Step → Act Outcome
  | .bind name v => do
    let v ← v.eval
    modifySession fun s => { s with vars := Fields.put name v s.vars }
    return .nothing
  | .show v => do return .value (← showOne (← v.eval))
  | .onList list s => do
    match ← list.eval with
    | .list l => s.run E l
    | _ => return .nothing
  | .onObject object s => do
    match ← object.eval with
    | .object o => s.run E o
    | _ => return .nothing
  | .listen name kind on key steps times => do
    addListener name kind (← on.eval) key (← newHook name steps times)
  | .unlisten name kind on key => removeListener name kind on key
  | .follow on other guarded => do followContent (← on.eval) (← other.eval) guarded
  | .configure text => configure text
  | .observe name what steps times => observe E name what steps times
  | .cancel name => cancelNamed E name
  | .join name names => do storeHandle E name (.join (← takeHandles names))
  | .teardown name steps times => do storeHandle E name (.user (← newHook name steps times))
  | .idle name => storeHandle E name .done
  | .quoteHandle name => quoteHandle name
  | .quoteScope context => quoteContext context
  | .newSlot name => makeSlot E name
  | .restartSlot name child starting steps times =>
    onSlot E name fun slot => restart E slot do
      record (.started child)
      runAll E child starting
      return .user (← newHook child steps times)
  | .cancelSlot name => onSlot E name (closeSlot E)
  | .slotHandle name handle => handleOfSlot E name handle
  | .newBindings name on context parameters operators => makeBindings E name on context parameters operators
  | .createBindings name on defs => createBindings E name on defs
  | .define name target descriptor => defineBinding E name target descriptor
  | .defineAll name defs => defineBindings E name defs
  | .cancelBindings name => onBindings E name fun b => do return (some (← b.cancelAll E), .nothing)
  | .dropBindings name => onBindings E name fun b => do
    discard <| b.cancelAll E
    return (none, .nothing)
  | .bindingsInfo name => onBindings E name fun b => do return (some b, .bindings (← BindingsInfo.ofSet b))
  | .quoteBindings name => onBindings E name fun b => do return (some b, .text (some (b.quoted (← contents))))

/-- Does the steps of a hook and logs what each comes to. -/
def runAll (E : Engine Hook Session) (name : String) : List Step → Act Unit
  | [] => pure ()
  | s :: ss => do
    record (.did name (← s.run E))
    runAll E name ss

end

/-- Does the steps of a hook if they may still be done. -/
def runHook (E : Engine Hook Session) (name : String) (steps : List Step) (budget : Nat) : Act Unit := do
  if ← spend budget then runAll E name steps

/-- What a script does when the engine calls it. -/
def scriptHost : Host Hook Session where
  listener E hook event := do
    match hook with
    | .steps name steps budget =>
      record (.heard name (← tellOf event))
      runHook E name steps budget
    | .follow other guarded =>
      if let .content added removed index := event then
        if !(guarded && (← other.isActive)) then
          discard <| other.splice E.reactions index removed.length added
  observer E hook v := do
    if let .steps name steps budget := hook then
      record (.emitted name (← showOne v))
      modifySession fun s => { s with emitted := Fields.put name v s.emitted }
      runHook E name steps budget
  teardown E hook := do
    if let .steps name steps budget := hook then
      record (.tornDown name)
      runHook E name steps budget

/-- The engine that scripts run on. -/
def scriptEngine : Engine Hook Session := engine scriptHost maxCalls

/-- A world in which nothing has been made yet. -/
def emptyWorld : World (Callback Hook) (Env Hook Session) where
  env := { host := {} }

/-- Binds variables in order. -/
def bindVariables : List (String × Operand) → Act Unit
  | [] => pure ()
  | (name, v) :: rest => do
    let v ← v.eval
    modifySession fun s => { s with vars := Fields.put name v s.vars }
    bindVariables rest

/-- The values of operands as they are seen now, each shown by itself. -/
def showEach : List Operand → Act (List Shown)
  | [] => return []
  | x :: xs => do
    let v ← showOne (← x.eval)
    let vs ← showEach xs
    return v :: vs

/-- The variables as they are seen now, in the order in which they were first bound. -/
def showVariables : List (String × Value) → Act (List (String × Shown))
  | [] => return []
  | (name, v) :: rest => do
    let v ← showOne v
    let vs ← showVariables rest
    return (name, v) :: vs

/-- What is reported of a step: what it came to or why it was abandoned, what was logged, and the watched values after
it. -/
structure StepReport where
  outcome : Except Fault Outcome
  log : List LogEntry
  watched : Option (List Shown)

/-- What is reported of a script: its steps, and the variables at its end. -/
structure Report where
  steps : List StepReport
  vars : List (String × Shown)

/-- Runs an action and catches its being abandoned. -/
def attempt {α : Type} (act : Act α) : Act (Except Fault α) := fun w =>
  match act w with
  | .ok a w => .ok (.ok a) w
  | .error e w => .ok (.error e) w

/-- Does a step and reports it. -/
def reportStep (watch : Option (List Operand)) (s : Step) : Act StepReport := do
  let outcome ← attempt (s.run scriptEngine)
  let log ← takeLog
  let watched ← match watch with
    | some xs => some <$> showEach xs
    | none => pure none
  return { outcome, log, watched }

/-- Does steps up to the first that is abandoned. -/
def reportSteps (watch : Option (List Operand)) : List Step → Act (List StepReport)
  | [] => return []
  | s :: ss => do
    let report ← reportStep watch s
    match report.outcome with
    | .error _ => return [report]
    | .ok _ => return report :: (← reportSteps watch ss)

/-- Runs a script. -/
def Program.report (p : Program) : Act Report := do
  bindVariables p.vars
  let steps ← reportSteps p.watch p.steps
  let vars ← showVariables (← host).vars
  return { steps, vars }

/-- Runs an action in a world of its own. -/
def runAlone {α : Type} (act : Act α) : Except Fault α :=
  match act emptyWorld with
  | .ok a _ => .ok a
  | .error e _ => .error e

/-- What a script comes to. -/
def Program.run (p : Program) : Except Fault Report := runAlone p.report

end LiveBindings.Script
