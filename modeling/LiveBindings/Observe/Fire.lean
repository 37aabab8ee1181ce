import LiveBindings.Observe.Emit

/-!
# Running the engine

What listeners do, how handles are taken down, and the engine itself. A dispatch may call listeners that change containers
again, so the engine is defined by the number of calls that may be nested inside each other. The limit on nested dispatches
keeps real nesting far below the number that programs run with.
-/

namespace LiveBindings

variable {π σ : Type}

/-- The action of a listener. -/
def Callback.fire (H : Host π σ) (E : Engine π σ) (callback : Callback π) (event : Event) : Live π σ Unit := do
  match callback with
  | .forward next => if let .value v := event then E.emit next v
  | .reread l index next => E.emit next (← l.get index)
  | .listHas l value next => E.emit next (.bool (← l.contains value))
  | .objectHas o key next => E.emit next (.bool (← o.has key))
  | .content b =>
    if let .content added removed index := event then Block.splice E b index removed.length added
  | .entries p o => refreshEntries E p (some o)
  | .segment b s inner => Block.refill E b s inner
  | .user p => H.listener E p event

mutual

/-- Takes down what a handle stands for. -/
def Cancel.run (H : Host π σ) (E : Engine π σ) : Cancel π → Live π σ Unit
  | .done => pure ()
  | .unlistenList l topic id => l.unlisten topic id
  | .unlistenObject o topic id => o.unlisten topic id
  | .closeSlot s => LiveBindings.closeSlot E s
  | .release b => LiveBindings.release E b
  | .join handles => Cancel.runAll H E handles
  | .user p => H.teardown E p

/-- Takes down several handles in order. When one is abandoned the others are still taken down. -/
def Cancel.runAll (H : Host π σ) (E : Engine π σ) : List (Cancel π) → Live π σ Unit
  | [] => pure ()
  | handle :: handles => fun w =>
    match Cancel.run H E handle w with
    | .ok _ w => Cancel.runAll H E handles w
    | .error e w =>
      match Cancel.runAll H E handles w with
      | .ok _ w | .error _ w => .error e w

end

/-- The engine for a host in which at most `calls` calls are nested. -/
def engine (H : Host π σ) (calls : Nat) : Engine π σ where
  fire callback event := match calls with
    | 0 => throw .exhausted
    | calls + 1 => callback.fire H (engine H calls) event
  letGo := match calls with
    | 0 => throw .exhausted
    | calls + 1 => sweep (engine H calls)
  emit sink v := match calls with
    | 0 => throw .exhausted
    | calls + 1 => sink.emit (engine H calls) (H.observer (engine H calls)) v
  react action values := match calls with
    | 0 => throw .exhausted
    | calls + 1 => action.react (engine H calls) (H.observer (engine H calls)) values
  start x sink scope := match calls with
    | 0 => throw .exhausted
    | calls + 1 => x.start (engine H calls) sink scope
  cancel handle := match calls with
    | 0 => throw .exhausted
    | calls + 1 => handle.run H (engine H calls)

/-- The number of nested calls that programs run with. -/
def maxCalls : Nat := 1000000

end LiveBindings
