import LiveBindings.Script.Session

/-!
# Steps on containers

What the steps on lists and objects do and what they come to.
-/

namespace LiveBindings.Script

/-- A value that may not be there. -/
def showOption : Option Value → Act Outcome
  | some v => return .value (← showOne v)
  | none => return .absent

/-- The comparison of an order. -/
def SortOrder.compare (order : SortOrder) (c : Contents) (a b : Value) : Ordering :=
  match order with
  | .descending => Value.compare b a
  | .textLength => Ord.compare (c.text a).length (c.text b).length
  | .equal => .eq

/-- How many listeners of two topics an object or list has. -/
def countListeners {τ : Type} [DecidableEq τ] (before after : τ) (ls : List (Listener τ (Callback Hook))) :
    ListenerCount where
  before := (Listeners.on before ls).length
  after := (Listeners.on after ls).length

def listInfo (l : ListId) : Act ListInfo := do
  let cell := (← get).listCell l
  return {
    length := cell.items.length
    isActive := ← l.isActive
    content := countListeners .beforeContent .content cell.listeners
    items := countListeners .beforeEach .each cell.listeners
    lengths := countListeners .beforeLength .length cell.listeners }

def objectInfo (o : ObjectId) : Act ObjectInfo := do
  let cell := (← get).objectCell o
  return {
    keys := cell.entries.map (·.1)
    values := ← showAll (cell.entries.map (·.2))
    listeners := cell.listeners.length }

def keyListeners (o : ObjectId) (key : String) : Act ListenerCount := do
  let cell := (← get).objectCell o
  return countListeners (.before key) (.after key) cell.listeners

/-- Does a step on a list. -/
def ListStep.run (E : Engine Hook Session) (l : ListId) : ListStep → Act Outcome
  | .splice index remove values => do
    return .values (← showAll (← l.splice E.reactions index remove (← evalAll values)))
  | .push values => do
    l.push E.reactions (← evalAll values)
    return .nothing
  | .pop => do showOption (← l.pop E.reactions)
  | .shift => do showOption (← l.shift E.reactions)
  | .unshift values => do
    l.unshift E.reactions (← evalAll values)
    return .nothing
  | .assign index value => do
    l.assign E.reactions index (← value.eval)
    return .nothing
  | .delete value => do return .flag (← l.delete E.reactions (← value.eval))
  | .wipe => do
    l.wipe E.reactions
    return .nothing
  | .replaceAll values => do
    l.replaceAll E.reactions (← evalAll values)
    return .nothing
  | .reverse => do
    l.reverse E.reactions
    return .nothing
  | .sort => do
    l.sort E.reactions
    return .nothing
  | .sortBy order => do
    l.sortBy E.reactions fun w => order.compare w.contents
    return .nothing
  | .slice start stop => do return .values (← showAll (← l.slice start stop))
  | .get index => do return .value (← showOne (← l.get index))
  | .contains value => do return .flag (← l.contains (← value.eval))
  | .indexOf value => do return .place (← l.indexOf (← value.eval))
  | .info => do return .list (← listInfo l)

/-- Does a step on an object. -/
def ObjectStep.run (E : Engine Hook Session) (o : ObjectId) : ObjectStep → Act Outcome
  | .assign key value => do
    o.assign E.reactions key (← value.eval)
    return .nothing
  | .delete key => do showOption (← o.delete E.reactions key)
  | .get key => do return .value (← showOne (← o.get key))
  | .has key => do return .flag (← o.has key)
  | .info => do return .object (← objectInfo o)
  | .listeners key => do return .listeners (← keyListeners o key)

/-! ## Listeners -/

/-- The part of a value that a listener hears of. -/
inductive Hearing
  | list (l : ListId) (topic : ListTopic)
  | object (o : ObjectId) (topic : ObjectTopic)

/-- What a listener of a kind hears of a value, if the value can be observed that way. -/
def ListenerKind.hearing? (kind : ListenerKind) (key : String) (on : Value) : Option Hearing :=
  match kind, on with
  | .beforeContent, .list l => some (.list l .beforeContent)
  | .content, .list l | .anyContent, .list l => some (.list l .content)
  | .beforeEach, .list l => some (.list l .beforeEach)
  | .each, .list l => some (.list l .each)
  | .beforeLength, .list l => some (.list l .beforeLength)
  | .length, .list l => some (.list l .length)
  | .beforeProperty, .object o | .anyBeforeProperty, .object o => some (.object o (.before key))
  | .property, .object o | .anyProperty, .object o => some (.object o (.after key))
  | .entries, .object o => some (.object o .entries)
  | .anyProperty, .list l => if key = "length" then some (.list l .length) else none
  | .anyBeforeProperty, .list l => if key = "length" then some (.list l .beforeLength) else none
  | _, _ => none

/-- Why a value cannot be observed: under a key, or its content. -/
def ListenerKind.unobservable (kind : ListenerKind) (key : String) (on : Value) : BindError :=
  .unobservable on.kind (if kind = .anyContent then none else some key)

/-- Registers a hook as a listener. -/
def addListener (name : String) (kind : ListenerKind) (on : Value) (key : String) (hook : Hook) : Act Outcome := do
  let register (id : ListenerId) : Act Outcome := do
    modifySession fun s => { s with registrations := Fields.put name ⟨kind, on, key, id⟩ s.registrations }
    return .nothing
  match kind.hearing? key on with
  | some (.list l topic) => register (← l.listen topic (.user hook))
  | some (.object o topic) => register (← o.listen topic (.user hook))
  | none => return .failed (.binding (kind.unobservable key on))

/-- Removes the listener of a name, by default from where it was registered. -/
def removeListener (name : String) (kind : Option ListenerKind) (on : Option Operand) (key : Option String) :
    Act Outcome := do
  match Fields.get? name (← host).registrations with
  | none => return .failed .noListener
  | some r =>
    let on ← match on with
      | some x => x.eval
      | none => pure r.on
    match (kind.getD r.kind).hearing? (key.getD r.key) on with
    | some (.list l topic) => l.unlisten topic r.id
    | some (.object o topic) => o.unlisten topic r.id
    | none => pure ()
    return .nothing

/-- Makes a list repeat the content changes of another one. -/
def followContent (on other : Value) (guarded : Bool) : Act Outcome := do
  if let (.list l, .list other) := (on, other) then
    discard <| l.listen .content (.user (.follow other guarded))
  return .nothing

/-- What a listener was told, as it is seen now: the added values are shown before the removed ones. -/
def tellOf : Event → Act Told
  | .content added removed index => do
    let added ← showAll added
    let removed ← showAll removed
    return .content added removed index
  | .item v index => do return .item (← showOne v) index
  | .value v => do return .value (← showOne v)
  | .entry key v => do return .entry key (← showOne v)

end LiveBindings.Script
