import LiveBindings.Store

/-!
# Shared objects

Keys with values in insertion order. An assignment of the same value tells nobody. Otherwise the listeners of the key are
told the old value before the change and the new one after it, and then the listeners of all entries. Deleting a key
reports `undefined` as its new value.
-/

namespace LiveBindings

namespace ObjectId

variable {κ ε : Type}

/-- A new object with the given entries, none of which anyone is told about. -/
def create (entries : List (String × Value)) : Run κ ε ObjectId := do
  let w ← EStateM.get
  set { w with objects := w.objects.push { entries } }
  return ⟨w.objects.size⟩

/-! ## Reading -/

def entries (o : ObjectId) : Run κ ε (List (String × Value)) := return ((← EStateM.get).objectCell o).entries

/-- The value under a key, `undefined` when there is none. -/
def get (o : ObjectId) (key : String) : Run κ ε Value := return (Fields.get? key (← o.entries)).getD .undefined

def has (o : ObjectId) (key : String) : Run κ ε Bool := return Fields.has key (← o.entries)

def length (o : ObjectId) : Run κ ε Nat := return (← o.entries).length

/-! ## Listeners -/

/-- Registers a listener. -/
def listen (o : ObjectId) (topic : ObjectTopic) (callback : κ) : Run κ ε ListenerId :=
  modifyGet fun w =>
    let id : ListenerId := ⟨w.nextListener⟩
    let register (c : ObjectCell κ) : ObjectCell κ := { c with listeners := c.listeners ++ [⟨id, topic, callback⟩] }
    (id, { w with nextListener := w.nextListener + 1 }.modifyObject o register)

/-- Removes a listener; one that is not there is ignored. -/
def unlisten (o : ObjectId) (topic : ObjectTopic) (id : ListenerId) : Run κ ε Unit :=
  modify (World.modifyObject o fun c => { c with listeners := Listeners.remove topic id c.listeners })

/-- The listeners of a topic. -/
def listeners (o : ObjectId) (topic : ObjectTopic) : Run κ ε (List (Listener ObjectTopic κ)) :=
  return Listeners.on topic ((← EStateM.get).objectCell o).listeners

/-- Whether a listener of the object is registered. -/
def registered (o : ObjectId) (w : World κ ε) (id : ListenerId) : Bool :=
  Listeners.isRegistered id (w.objectCell o).listeners

/-! ## Changing -/

/-- Tells the listeners of all entries about a key. -/
def tellEntry (R : Reactions κ ε) (o : ObjectId) (key : String) (value : Value) : Run κ ε Unit := do
  let ls ← o.listeners .entries
  holding R (ls.map (·.callback)) (tellAll R o.registered (.entry key value) ls)

def modifyEntries (o : ObjectId) (f : List (String × Value) → List (String × Value)) : Run κ ε Unit :=
  modify (World.modifyObject o fun c => { c with entries := f c.entries })

/-- Changes the value of a key and announces it. The listeners of the key are captured before any is told. -/
def change (R : Reactions κ ε) (o : ObjectId) (key : String) (old new : Value)
    (f : List (String × Value) → List (String × Value)) : Run κ ε Unit :=
  nested .object (o.modifyEntries f) do
    let before ← o.listeners (.before key)
    let after ← o.listeners (.after key)
    holding R ((before ++ after).map (·.callback)) do
      tellAll R o.registered (.value old) before
      o.modifyEntries f
      tellAll R o.registered (.value new) after
      o.tellEntry R key new

/-- Assigns a value to a key. A key that is new with the value `undefined` changes no property, so that only the listeners
of all entries are told. -/
def assign (R : Reactions κ ε) (o : ObjectId) (key : String) (value : Value) : Run κ ε Unit := do
  match Fields.get? key (← o.entries) with
  | some old =>
    if old.same value then return ()
    o.change R key old value (Fields.put key value)
  | none =>
    if value.isUndefined then
      o.modifyEntries (Fields.put key .undefined)
      nested .object (pure ()) (o.tellEntry R key .undefined)
    else o.change R key .undefined value (Fields.put key value)

/-- Removes a key and returns its value. -/
def delete (R : Reactions κ ε) (o : ObjectId) (key : String) : Run κ ε (Option Value) := do
  match Fields.get? key (← o.entries) with
  | some old =>
    o.change R key old .undefined (Fields.erase key)
    return some old
  | none => return none

end ObjectId

end LiveBindings
