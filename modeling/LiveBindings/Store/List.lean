import LiveBindings.Store

/-!
# Shared lists

Every change of a list is one replacement of a run of items, or one reordering of all items, and is announced in a fixed
order: before-length (if the length changes), before-content, before-each for every index of the affected span; then the
change; then each for every index of the span, content, and length (if it changed). Listeners may change the same list
again: a change is made to the items it finds when its turn comes, and the later announcements say what was really done.
-/

namespace LiveBindings

/-- What a content listener is told: the index, the values added there and the values removed from there. -/
structure ListReport where
  index : Nat
  added : List Value
  removed : List Value

/-- What is known of a change before it is made. The affected span has `spanLength` indices from `index` on. -/
structure ListChange where
  index : Nat
  spanLength : Nat
  oldLength : Nat
  newLength : Nat

/-- The items with `remove` of them at `index` replaced. -/
def replaceRun (items : List Value) (index remove : Nat) (plus : List Value) : List Value :=
  items.take index ++ plus ++ items.drop (index + remove)

namespace ListId

variable {κ ε : Type}

/-- A new list with the given items. -/
def create (items : List Value) : Run κ ε ListId := do
  let w ← get
  set { w with lists := w.lists.push { items } }
  return ⟨w.lists.size⟩

/-! ## Reading -/

def items (l : ListId) : Run κ ε (List Value) := return ((← get).listCell l).items

/-- The item at an index, `undefined` past the end. -/
def get (l : ListId) (index : Nat) : Run κ ε Value := return (← l.items).getD index .undefined

def length (l : ListId) : Run κ ε Nat := return (← l.items).length

/-- The items of a range, cut off at the length. -/
def slice (l : ListId) (start stop : Nat) : Run κ ε (List Value) := do
  let items ← l.items
  return (items.take stop).drop (min start stop)

/-- The index of the first item that is the same as a value. -/
def indexOf (l : ListId) (v : Value) : Run κ ε (Option Nat) := return (← l.items).findIdx? (·.same v)

def contains (l : ListId) (v : Value) : Run κ ε Bool := return v.memberOf (← l.items)

/-- Whether one of the list's own content dispatches is in flight. -/
def isActive (l : ListId) : Run κ ε Bool := return (← EStateM.get).isActive l

/-! ## Listeners -/

/-- Registers a listener. -/
def listen (l : ListId) (topic : ListTopic) (callback : κ) : Run κ ε ListenerId :=
  modifyGet fun w =>
    let id : ListenerId := ⟨w.nextListener⟩
    let register (c : ListCell κ) : ListCell κ := { c with listeners := c.listeners ++ [⟨id, topic, callback⟩] }
    (id, { w with nextListener := w.nextListener + 1 }.modifyList l register)

/-- Removes a listener; one that is not there is ignored. -/
def unlisten (l : ListId) (topic : ListTopic) (id : ListenerId) : Run κ ε Unit :=
  modify (World.modifyList l fun c => { c with listeners := Listeners.remove topic id c.listeners })

/-- The listeners of a topic. -/
def listeners (l : ListId) (topic : ListTopic) : Run κ ε (List (Listener ListTopic κ)) :=
  return Listeners.on topic ((← EStateM.get).listCell l).listeners

/-- Whether a listener of the list is registered. -/
def registered (l : ListId) (w : World κ ε) (id : ListenerId) : Bool :=
  Listeners.isRegistered id (w.listCell l).listeners

/-! ## Announcing -/

/-- Tells the listeners of a length. -/
def tellLength (R : Reactions κ ε) (l : ListId) (topic : ListTopic) (length : Nat) : Run κ ε Unit := do
  let ls ← l.listeners topic
  holding R (ls.map (·.callback)) (tellAll R l.registered (.value (Value.ofNat length)) ls)

/-- Tells the listeners of the content. -/
def tellContent (R : Reactions κ ε) (l : ListId) (topic : ListTopic) (report : ListReport) : Run κ ε Unit := do
  let ls ← l.listeners topic
  tellInTurn R l.registered (.content report.added report.removed report.index) ls

/-- Tells captured listeners about `count` indices from `index` on, each with the value found there. -/
def tellItems (R : Reactions κ ε) (l : ListId) (ls : List (Listener ListTopic κ)) :
    (count index : Nat) → Run κ ε Unit
  | 0, _ => pure ()
  | count + 1, index => do
    let v ← l.get index
    tellAll R l.registered (.item v index) ls
    tellItems R l ls count (index + 1)

/-- Tells the listeners of single items about a span. -/
def tellSpan (R : Reactions κ ε) (l : ListId) (topic : ListTopic) (change : ListChange) : Run κ ε Unit := do
  let ls ← l.listeners topic
  if ls.isEmpty then return ()
  holding R (ls.map (·.callback)) (tellItems R l ls change.spanLength change.index)

/-- Runs an action as a content dispatch of the list. -/
def dispatching {α : Type} (l : ListId) (act : Run κ ε α) : Run κ ε α :=
  restoring (World.modifyList l fun c => { c with dispatching := c.dispatching - 1 }) do
    modify (World.modifyList l fun c => { c with dispatching := c.dispatching + 1 })
    act

/-- Makes a change and announces it. `mutate` changes the items and says what it did. -/
def apply (R : Reactions κ ε) (l : ListId) (change : ListChange) (before : ListReport)
    (mutate : Run κ ε ListReport) : Run κ ε ListReport :=
  nested .list mutate do
    let lengthChanges := change.oldLength != change.newLength
    if lengthChanges then l.tellLength R .beforeLength change.oldLength
    let after ← l.dispatching do
      l.tellContent R .beforeContent before
      l.tellSpan R .beforeEach change
      let after ← mutate
      l.tellSpan R .each change
      l.tellContent R .content after
      return after
    if lengthChanges then l.tellLength R .length (← l.length)
    return after

/-! ## Changing -/

/-- The change itself: a run is replaced, cut off at the length that the list has by now. -/
def replaceItems (l : ListId) (index remove : Nat) (plus : List Value) : Run κ ε ListReport := do
  let items ← l.items
  let start := min index items.length
  let stop := min (index + remove) items.length
  modify (World.modifyList l fun c => { c with items := replaceRun items start (stop - start) plus })
  return { index := start, added := plus, removed := (items.take stop).drop start }

/-- Replaces `remove` items at `index`, both cut off at the length, and returns the removed ones. A replacement of nothing
by nothing is no change. -/
def splice (R : Reactions κ ε) (l : ListId) (index remove : Nat) (plus : List Value) : Run κ ε (List Value) := do
  let items ← l.items
  let index := min index items.length
  let minus := (items.drop index).take remove
  if plus.isEmpty && minus.isEmpty then return []
  let newLength := items.length - minus.length + plus.length
  let change : ListChange :=
    { index
      spanLength := if newLength = items.length then plus.length else max items.length newLength - index
      oldLength := items.length
      newLength }
  let after ← l.apply R change { index, added := plus, removed := minus } (l.replaceItems index minus.length plus)
  return after.removed

/-- Appends values at the end. -/
def push (R : Reactions κ ε) (l : ListId) (values : List Value) : Run κ ε Unit := do
  discard <| l.splice R (← l.length) 0 values

/-- Removes the last item and returns it. -/
def pop (R : Reactions κ ε) (l : ListId) : Run κ ε (Option Value) := do
  let n ← l.length
  if n = 0 then return none
  return (← l.splice R (n - 1) 1 []).getLast?

/-- Removes the first item and returns it. -/
def shift (R : Reactions κ ε) (l : ListId) : Run κ ε (Option Value) := do
  if (← l.length) = 0 then return none
  return (← l.splice R 0 1 []).getLast?

/-- Inserts values at the front. -/
def unshift (R : Reactions κ ε) (l : ListId) (values : List Value) : Run κ ε Unit :=
  discard <| l.splice R 0 0 values

/-- Assigns an item. The same value is no change; past the end the gap is filled with `undefined`. -/
def assign (R : Reactions κ ε) (l : ListId) (index : Nat) (value : Value) : Run κ ε Unit := do
  let n ← l.length
  if index < n then
    if (← l.get index).same value then return ()
    discard <| l.splice R index 1 [value]
  else
    discard <| l.splice R n 0 (List.replicate (index - n) .undefined ++ [value])

/-- Removes the first item that is the same as a value, and says whether there was one. -/
def delete (R : Reactions κ ε) (l : ListId) (value : Value) : Run κ ε Bool := do
  match ← l.indexOf value with
  | some index =>
    discard <| l.splice R index 1 []
    return true
  | none => return false

/-- Removes every item. -/
def wipe (R : Reactions κ ε) (l : ListId) : Run κ ε Unit := do
  discard <| l.splice R 0 (← l.length) []

/-- Replaces the whole content. -/
def replaceAll (R : Reactions κ ε) (l : ListId) (values : List Value) : Run κ ε Unit := do
  discard <| l.splice R 0 (← l.length) values

/-- Reorders the items, announced as one change of the whole list: all items before it, and all items after it, count as
both added and removed. The new order is found when the change is made. -/
def reorder (R : Reactions κ ε) (l : ListId) (order : World κ ε → List Value → List Value) : Run κ ε Unit := do
  let current ← l.items
  let n := current.length
  if n = 0 then return ()
  let change : ListChange := { index := 0, spanLength := n, oldLength := n, newLength := n }
  discard <| l.apply R change { index := 0, added := current, removed := current } do
    let w ← EStateM.get
    let items := order w (w.listCell l).items
    modify (World.modifyList l fun c => { c with items })
    return { index := 0, added := items, removed := items }

/-- Reverses the items. -/
def reverse (R : Reactions κ ε) (l : ListId) : Run κ ε Unit := l.reorder R fun _ items => items.reverse

/-- Sorts the items by a comparison; items that compare equal keep their order. -/
def sortBy (R : Reactions κ ε) (l : ListId) (compare : World κ ε → Value → Value → Ordering) : Run κ ε Unit :=
  l.reorder R fun w items => items.mergeSort fun a b => compare w a b != .gt

/-- Sorts the items by the order of values. -/
def sort (R : Reactions κ ε) (l : ListId) : Run κ ε Unit := l.sortBy R fun _ => Value.compare

end ListId

end LiveBindings
