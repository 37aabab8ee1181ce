import LiveBindings.Observe.Bind
import LiveBindings.Observe.Write

/-!
# What sinks do

A sink that receives a value passes it on, starts something for it, or stores it where it belongs. Arguments are compared
with those before, so that only a change is reacted to, and only when all arguments have been started.
-/

namespace LiveBindings

variable {π σ : Type}

/-- Starts what a branch says for a value. -/
def Branch.start (E : Engine π σ) : Branch π → Value → Live π σ (Cancel π)
  | .body x scope next, v => E.start x next (scope.nest v)
  | .either consequent alternate scope next, v => E.start (if v.truthy then consequent else alternate) next scope
  | .content b, .list l => do
    Block.reset E b (← l.items)
    let id ← l.listen .content (.content b)
    return .unlistenList l .content id
  | .content b, _ => do
    Block.reset E b []
    return .done
  | .entries p, .object o => do
    refreshEntries E p (some o)
    let id ← o.listen .entries (.entries p o)
    return .unlistenObject o .entries id
  | .entries p, _ => do
    refreshEntries E p none
    return .done
  | .target t source scope, v => t.bind E source (scope.nest v)

/-- Makes the length of a list of consecutive numbers the one wanted, by a change at its end. -/
def setExtent (E : Engine π σ) (l : ListId) (wanted : Nat) : Live π σ Unit := do
  let n ← l.length
  if n < wanted then l.push E.reactions ((List.range' n (wanted - n)).map Value.ofNat)
  else if wanted < n then discard <| l.splice E.reactions wanted (n - wanted) []

/-- Passes on what is emitted unless something else is in progress or not all is set up yet. -/
def emitGuarded (syncing : Ref .flag) (ready : Option (Ref .flag)) (emit : Live π σ Unit) : Live π σ Unit := do
  let c ← cells
  if c.flag syncing || ready.any (fun r => !c.flag r) then return ()
  setFlag syncing true
  emit
  setFlag syncing false

mutual

/-- Hands a value to a sink; `observer` is what the embedding program does with its values. -/
def Sink.emit (E : Engine π σ) (observer : π → Value → Live π σ Unit) : Sink π → Value → Live π σ Unit
  | .user p, v => observer p v
  | .distinct last next, v => do
    if ((← cells).lastValue last).any (·.same v) then return ()
    setLast last v
    next.emit E observer v
  | .mapped f next, v => do next.emit E observer (f (← contents) [v])
  | .inverse f next, v => next.emit E observer (f v)
  | .truth next, v => next.emit E observer (.bool v.truthy)
  | .argument row index action, v => do
    let args := (← cells).argsCell row
    if (args.values.getD index .undefined).same v then return ()
    modifyArgs row fun c => { c with values := c.values.set index v }
    if args.ready then action.react E observer (args.values.set index v)
  | .switch s branch, v => restart E s (branch.start E v)
  | .property o key, v => o.assign E.reactions key v
  | .item l index, v => l.assign E.reactions index v
  | .extent l, v => setExtent E l (v.asIndex.getD 0)
  | .result r e, v => do
    let owner := ((← cells).relationsCell r).owner
    Relations.receive (Block.update E owner) r e v
  | .guarded syncing ready next, v => emitGuarded syncing ready (next.emit E observer v)
  | .write how container key, v => write E how container key v

/-- Does what is to be done with arguments that are all there. -/
def ArgsAction.react (E : Engine π σ) (observer : π → Value → Live π σ Unit) :
    ArgsAction π → List Value → Live π σ Unit
  | .compute f next, values => do next.emit E observer (f (← contents) values)
  | .follow s what next, values =>
    restart E s (LiveBindings.follow E what (values.getD 0 .undefined) (values.getD 1 .undefined) next)
  | .bounds window, values =>
    setBounds E window ((values.getD 0 .undefined).asIndex.getD 0) ((values.getD 1 .undefined).asIndex.getD 0)
  | .writeTo s how source, values =>
    restart E s (source.start E (.write how (values.getD 0 .undefined) (values.getD 1 .undefined)))
  | .gate next, values => do
    if (values.getD 0 .undefined).truthy then next.emit E observer (values.getD 1 .undefined)

end

end LiveBindings
