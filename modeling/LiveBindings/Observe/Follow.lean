import LiveBindings.Engine
import LiveBindings.Store.Contents

/-!
# Following a value under a key

What is under a key is handed on at once and again after every change there. Objects are read by key, lists by index or by
the key `length`, texts by the key `length`; all else has nothing under any key. The presence of an element or key is
followed in the same way.
-/

namespace LiveBindings

variable {π σ : Type}

/-- Whether a key asks for a length. -/
def asksLength (key : Value) : Bool := key == .text "length"

/-- Follows the entry of an object under a name. -/
def followEntry (E : Engine π σ) (o : ObjectId) (name : String) (next : Sink π) : Live π σ (Cancel π) := do
  E.emit next (← o.get name)
  let id ← o.listen (.after name) (.forward next)
  return .unlistenObject o (.after name) id

/-- Follows the length of a list. -/
def followLength (E : Engine π σ) (l : ListId) (next : Sink π) : Live π σ (Cancel π) := do
  E.emit next (Value.ofNat (← l.length))
  let id ← l.listen .length (.forward next)
  return .unlistenList l .length id

/-- Follows the item of a list at an index. -/
def followItem (E : Engine π σ) (l : ListId) (index : Nat) (next : Sink π) : Live π σ (Cancel π) := do
  E.emit next (← l.get index)
  let id ← l.listen .content (.reread l index next)
  return .unlistenList l .content id

/-- Hands on a value that will not change. -/
def constant (E : Engine π σ) (v : Value) (next : Sink π) : Live π σ (Cancel π) := do
  E.emit next v
  return .done

/-- Follows what a value has under a key. -/
def followProperty (E : Engine π σ) (target key : Value) (next : Sink π) : Live π σ (Cancel π) := do
  match target with
  | .object o => followEntry E o ((← contents).key key) next
  | .list l =>
    if asksLength key then followLength E l next
    else match key.asIndex with
      | some index => followItem E l index next
      | none => constant E .undefined next
  | .text s => constant E (if asksLength key then Value.ofNat s.length else .undefined) next
  | _ => constant E .undefined next

/-- Follows whether a list has an element. -/
def followElement (E : Engine π σ) (l : ListId) (value : Value) (next : Sink π) : Live π σ (Cancel π) := do
  E.emit next (.bool (← l.contains value))
  let id ← l.listen .content (.listHas l value next)
  return .unlistenList l .content id

/-- Follows whether an object has a key. -/
def followKey (E : Engine π σ) (o : ObjectId) (name : String) (next : Sink π) : Live π σ (Cancel π) := do
  E.emit next (.bool (← o.has name))
  let id ← o.listen .entries (.objectHas o name next)
  return .unlistenObject o .entries id

/-- Follows whether a collection has an element or key. -/
def followMembership (E : Engine π σ) (collection member : Value) (next : Sink π) : Live π σ (Cancel π) := do
  match collection with
  | .list l => followElement E l member next
  | .object o => followKey E o ((← contents).key member) next
  | _ => constant E (.bool false) next

/-- Follows a container under a key. -/
def follow (E : Engine π σ) (what : Followed) (container key : Value) (next : Sink π) : Live π σ (Cancel π) :=
  match what with
  | .property => followProperty E container key next
  | .membership => followMembership E container key next

end LiveBindings
