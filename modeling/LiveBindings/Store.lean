import LiveBindings.Config
import LiveBindings.Fields
import LiveBindings.Value

/-!
# The store: shared lists and objects with their listeners

A `World` holds every list and object with its content and its listeners, how many dispatches are in flight, and whatever
else the callbacks work on (`env`). What a callback is stays open here: `κ` is the type of callbacks and `ε` that of the
rest of the world, and the operations of this layer take the action of a callback as a parameter (`Reactions`). A
computation that is abandoned (`Fault`) keeps the changes it made.
-/

namespace LiveBindings

/-- Names a listener; no two listeners ever have the same. -/
structure ListenerId where
  index : Nat
deriving DecidableEq, Inhabited

/-- What a listener of a list is told about. -/
inductive ListTopic
  | beforeLength
  | beforeContent
  | beforeEach
  | each
  | content
  | length
deriving DecidableEq

/-- What a listener of an object is told about. -/
inductive ObjectTopic
  /-- The old value of a key, before it changes. -/
  | before (key : String)
  /-- The new value of a key, after it changed. -/
  | after (key : String)
  /-- Every key that is assigned or deleted. -/
  | entries
deriving DecidableEq

/-- What a listener is told. -/
inductive Event
  /-- The values added and removed at an index. -/
  | content (added removed : List Value) (index : Nat)
  /-- The value at one index of a changed span. -/
  | item (value : Value) (index : Nat)
  /-- A length, or the value of a property. -/
  | value (value : Value)
  /-- A key and its value. -/
  | entry (key : String) (value : Value)

/-- A registered listener. -/
structure Listener (τ κ : Type) where
  id : ListenerId
  topic : τ
  callback : κ

/-- A list: its items, its listeners in the order of registration, and how many of its own content dispatches are in
flight. -/
structure ListCell (κ : Type) where
  items : List Value := []
  listeners : List (Listener ListTopic κ) := []
  dispatching : Nat := 0

/-- An object: its entries in insertion order, and its listeners in the order of registration. -/
structure ObjectCell (κ : Type) where
  entries : List (String × Value) := []
  listeners : List (Listener ObjectTopic κ) := []

/-- Everything that the engine works on. -/
structure World (κ ε : Type) where
  lists : Array (ListCell κ) := #[]
  objects : Array (ObjectCell κ) := #[]
  nextListener : Nat := 0
  /-- The number of dispatches in flight. -/
  depth : Nat := 0
  config : Config := {}
  /-- The callbacks that dispatches in flight have captured and not yet let go. -/
  held : List κ := []
  env : ε

/-- Why a computation was abandoned. -/
inductive Fault
  /-- A change at the limit of nested dispatches, under the policy that refuses it. -/
  | depthLimit (container : Kind) (depth : Nat)
  /-- A view of an object's items had to be refreshed while it was setting one of its tuples. -/
  | tuplesBusy
  /-- The bound on nested calls was too small. -/
  | exhausted
deriving DecidableEq

namespace Fault

/-- The text that a fault is reported with. -/
def message : Fault → String
  | depthLimit container depth =>
    container.name ++ " dispatch depth limit (" ++ Number.natText depth ++ ") reached; listener cycle?"
  | tuplesBusy => "RefCell already borrowed"
  | exhausted => "call nesting exhausted"

end Fault

/-- A computation on a world. When it is abandoned, the world stays as it was left. -/
abbrev Run (κ ε : Type) := EStateM Fault (World κ ε)

/-- What the callbacks of a world do. -/
structure Reactions (κ ε : Type) where
  /-- The action of a callback on an event. -/
  fire : κ → Event → Run κ ε Unit
  /-- What follows when a dispatch lets captured callbacks go. -/
  letGo : Run κ ε Unit := pure ()

namespace Listeners

variable {τ κ : Type} [DecidableEq τ]

/-- The listeners of a topic in the order of registration. -/
def on (topic : τ) (ls : List (Listener τ κ)) : List (Listener τ κ) := ls.filter (·.topic = topic)

/-- The listeners without one; a listener that is not there under the topic is nobody's. -/
def remove (topic : τ) (id : ListenerId) (ls : List (Listener τ κ)) : List (Listener τ κ) :=
  ls.filter fun l => !(l.topic = topic && l.id = id)

/-- Whether a listener is registered. -/
def isRegistered (id : ListenerId) (ls : List (Listener τ κ)) : Bool := ls.any (·.id = id)

end Listeners

namespace World

variable {κ ε : Type}

/-- The content of a list; a list that was never made is empty. -/
def listCell (w : World κ ε) (l : ListId) : ListCell κ := w.lists.getD l.index {}

/-- The content of an object; an object that was never made is empty. -/
def objectCell (w : World κ ε) (o : ObjectId) : ObjectCell κ := w.objects.getD o.index {}

def modifyList (l : ListId) (f : ListCell κ → ListCell κ) (w : World κ ε) : World κ ε :=
  { w with lists := w.lists.modify l.index f }

def modifyObject (o : ObjectId) (f : ObjectCell κ → ObjectCell κ) (w : World κ ε) : World κ ε :=
  { w with objects := w.objects.modify o.index f }

/-- Whether one of the list's own content dispatches is in flight. -/
def isActive (w : World κ ε) (l : ListId) : Bool := decide (0 < (w.listCell l).dispatching)

end World

variable {κ ε α : Type}

/-- Runs an action and restores part of the world afterwards, also when the action is abandoned. -/
def restoring (restore : World κ ε → World κ ε) (act : Run κ ε α) : Run κ ε α := fun w =>
  match act w with
  | .ok a w => .ok a (restore w)
  | .error e w => .error e (restore w)

/-- Runs `act` as one more nested dispatch. At the limit it is `silent` that runs, or the computation is abandoned. -/
def nested (container : Kind) (silent act : Run κ ε α) : Run κ ε α := do
  let w ← get
  if w.config.maxDispatchDepth ≤ w.depth then
    match w.config.onDepthExceeded with
    | .skip => silent
    | .panic => throw (.depthLimit container w.depth)
  else
    restoring (fun w => { w with depth := w.depth - 1 }) do
      modify fun w => { w with depth := w.depth + 1 }
      act

/-- Runs an action while a dispatch holds the given callbacks. -/
def withHeld (callbacks : List κ) (act : Run κ ε α) : Run κ ε α := do
  let base := (← get).held
  restoring (fun w => { w with held := base }) do
    modify fun w => { w with held := callbacks ++ base }
    act

/-- Runs an action while a dispatch holds the given callbacks; then they are let go. -/
def holding (R : Reactions κ ε) (callbacks : List κ) (act : Run κ ε α) : Run κ ε α := do
  let a ← withHeld callbacks act
  R.letGo
  return a

/-- Tells a listener, if it is registered. -/
def tell {τ : Type} (R : Reactions κ ε) (registered : World κ ε → ListenerId → Bool) (e : Event)
    (l : Listener τ κ) : Run κ ε Unit := do
  if registered (← get) l.id then R.fire l.callback e

/-- Tells the captured listeners of one pass in order, each only if it is still registered when its turn comes. A callback
is let go when its turn is over, those that follow are held meanwhile. -/
def tellInTurn {τ : Type} (R : Reactions κ ε) (registered : World κ ε → ListenerId → Bool) (e : Event) :
    List (Listener τ κ) → Run κ ε Unit
  | [] => pure ()
  | l :: ls => do
    withHeld (ls.map (·.callback)) (holding R [l.callback] (tell R registered e l))
    tellInTurn R registered e ls

/-- Tells the captured listeners of one pass in order, each only if it is still registered when its turn comes. -/
def tellAll {τ : Type} (R : Reactions κ ε) (registered : World κ ε → ListenerId → Bool) (e : Event) :
    List (Listener τ κ) → Run κ ε Unit
  | [] => pure ()
  | l :: ls => do
    tell R registered e l
    tellAll R registered e ls

end LiveBindings
