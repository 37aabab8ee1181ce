import LiveBindings.Engine
import LiveBindings.Store.Contents

/-!
# Writing a value under a key

The counterpart of following: a value becomes what a container has under a key, or its truth becomes the presence of an
element or key. A container that is neither list nor object takes nothing.
-/

namespace LiveBindings

variable {π σ : Type}

/-- Makes a value what a container has under a key. A list takes values only at indices. -/
def assignUnder (E : Engine π σ) (container key value : Value) : Live π σ Unit := do
  match container with
  | .object o => o.assign E.reactions ((← contents).key key) value
  | .list l =>
    match key.asIndex with
    | some index => l.assign E.reactions index value
    | none => return ()
  | _ => return ()

/-- Deletes an element from a list until it is not there any more, in at most `rounds` rounds. -/
def deleteAll (E : Engine π σ) (l : ListId) (value : Value) : (rounds : Nat) → Live π σ Unit
  | 0 => throw .exhausted
  | rounds + 1 => do
    if ← l.delete E.reactions value then deleteAll E l value rounds

/-- How many times, at most, elements that are put back while they are being deleted are deleted again. -/
def deletePatience : Nat := 1000000

/-- Makes the presence of an element or key what `present` says. -/
def setPresence (E : Engine π σ) (collection member : Value) (present : Bool) : Live π σ Unit := do
  match collection with
  | .list l =>
    if present then
      if !(← l.contains member) then l.push E.reactions [member]
    else deleteAll E l member ((← l.length) + deletePatience)
  | .object o =>
    let name := (← contents).key member
    if present then o.assign E.reactions name (.bool true)
    else discard <| o.delete E.reactions name
  | _ => return ()

/-- Writes a value to a place. -/
def write (E : Engine π σ) (how : Writing) (container key value : Value) : Live π σ Unit :=
  match how with
  | .assign => assignUnder E container key value
  | .toggle => setPresence E container key value.truthy

end LiveBindings
